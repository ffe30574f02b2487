import OsWorkbench.Kernel.Keyboard

/-!
# Events are read as they are typed

The ring holds the events that nobody has read, in the order of the keys. A reader that has passed
the semaphore finds one of them.
-/

namespace OsWorkbench.Kernel

open Library

section Flags

/-- The flags say which keys are held. -/
structure Heeds (strokes : List Stroke) (input : Input) : Prop where
  capslock : input.capslock = capsOn strokes
  shiftDown : input.shiftDown = (keyHeld strokes keyLshift, keyHeld strokes keyRshift)
  ctrlDown : input.ctrlDown = (keyHeld strokes keyLctrl, keyHeld strokes keyRctrl)
  altDown : input.altDown = (keyHeld strokes keyLalt, keyHeld strokes keyRalt)

/-- Everything but the flags. -/
def Input.SameRing (input input' : Input) : Prop :=
  input'.events = input.events ∧ input'.front = input.front ∧ input'.rear = input.rear

variable {strokes : List Stroke} {stroke : Stroke} {input input' : Input} {ev : InputEvent}

/-- The keys that `input_keydown` keeps a flag for. -/
def flagKeys : List Nat :=
  [keyCapslock, keyLctrl, keyRctrl, keyLalt, keyRalt, keyLshift, keyRshift]

theorem flag_keys_blank : ∀ key ∈ flagKeys, keymap key = 0 := by decide

/-- A stroke of another key changes no flag. -/
theorem Heeds.other (heeds : Heeds strokes input) (plain : stroke.keycode ∉ flagKeys) :
    Heeds (strokes ++ [stroke]) input := by
  simp only [flagKeys, List.mem_cons, List.not_mem_nil, or_false, not_or] at plain
  obtain ⟨caps, lctrl, rctrl, lalt, ralt, lshift, rshift⟩ := plain
  have other : stroke ≠ ⟨true, keyCapslock⟩ := fun same => caps (congrArg Stroke.keycode same)
  constructor
  · rw [caps_on_concat, if_neg other]
    exact heeds.capslock
  · rw [key_held_concat, key_held_concat, if_neg lshift, if_neg rshift]
    exact heeds.shiftDown
  · rw [key_held_concat, key_held_concat, if_neg lctrl, if_neg rctrl]
    exact heeds.ctrlDown
  · rw [key_held_concat, key_held_concat, if_neg lalt, if_neg ralt]
    exact heeds.altDown

/-- A stroke of one of these keys types nothing. -/
theorem flag_key_heeded (heeds : Heeds strokes input) (inside : stroke.keycode < keymapSize)
    (flag : stroke.keycode ∈ flagKeys) :
    ∃ input', inputKeydown input (readKey stroke) = some (input', false) ∧
      Heeds (strokes ++ [stroke]) input' ∧ input.SameRing input' := by
  obtain ⟨capslock, shiftDown, ctrlDown, altDown⟩ := heeds
  obtain ⟨keydown, keycode⟩ := stroke
  simp only [flagKeys, List.mem_cons, List.not_mem_nil, or_false] at flag
  cases keydown with
  | true =>
      obtain ⟨bit, code⟩ := read_key_down rfl inside
      simp only [inputKeydown, if_pos bit, code]
      rcases flag with rfl | rfl | rfl | rfl | rfl | rfl | rfl
      all_goals
        refine ⟨_, rfl, ?_, rfl, rfl, rfl⟩
        constructor
        all_goals
          simp [caps_on_concat, key_held_concat, capslock, shiftDown, ctrlDown, altDown, keyCapslock,
            keyLctrl, keyRctrl, keyLalt, keyRalt, keyLshift, keyRshift]
  | false =>
      obtain ⟨bit, code⟩ := read_key_up rfl inside
      simp only [inputKeydown, code]
      rcases flag with rfl | rfl | rfl | rfl | rfl | rfl | rfl
      all_goals
        refine ⟨_, rfl, ?_, rfl, rfl, rfl⟩
        constructor
        all_goals
          simp [caps_on_concat, key_held_concat, capslock, shiftDown, ctrlDown, altDown, keyCapslock,
            keyLctrl, keyRctrl, keyLalt, keyRalt, keyLshift, keyRshift]

/-- The stroke of another key pushes what it types. -/
theorem plain_key_pushed (heeds : Heeds strokes input) (inside : stroke.keycode < keymapSize)
    (plain : stroke.keycode ∉ flagKeys) :
    inputKeydown input (readKey stroke) =
      (meaning strokes stroke).elim (some (input, false)) fun ev =>
        (pushEvent input ev).map (·, true) := by
  simp only [flagKeys, List.mem_cons, List.not_mem_nil, or_false, not_or] at plain
  obtain ⟨caps, lctrl, rctrl, lalt, ralt, lshift, rshift⟩ := plain
  cases down : stroke.keydown with
  | true =>
      obtain ⟨bit, code⟩ := read_key_down down inside
      simp only [inputKeydown, if_pos bit, code, if_neg caps, if_neg lctrl, if_neg rctrl,
        if_neg lalt, if_neg ralt, if_neg lshift, if_neg rshift, heeds.capslock, heeds.shiftDown,
        heeds.ctrlDown, heeds.altDown, meaning, down, true_and]
      by_cases blank : keymap stroke.keycode = 0
      · rw [if_pos blank, if_neg (not_not.mpr blank)]
        rfl
      · rw [if_neg blank, if_pos blank]
        split
        · rfl
        · split
          · split <;> rfl
          · split <;> rfl
  | false =>
      obtain ⟨bit, code⟩ := read_key_up down inside
      unfold inputKeydown
      dsimp only
      rw [meaning_up down, if_neg (not_not.mpr bit), code, if_neg lctrl, if_neg rctrl, if_neg lalt,
        if_neg ralt, if_neg lshift, if_neg rshift]
      rfl

end Flags

section Ring

/-- The unread events. -/
structure Queued (events : List InputEvent) (input : Input) : Prop where
  inside : input.front < nevents
  room : events.length < nevents
  rear : input.rear = (input.front + events.length) % nevents
  events : window input.events nevents input.front events.length = events

variable {events : List InputEvent} {input input' : Input} {ev first : InputEvent}

theorem Queued.same (queued : Queued events input) (same : input.SameRing input') :
    Queued events input' := by
  obtain ⟨ring, front, rear⟩ := same
  constructor
  · exact front ▸ queued.inside
  · exact queued.room
  · rw [rear, front]
    exact queued.rear
  · rw [ring, front]
    exact queued.events

theorem Queued.next (queued : Queued events input) :
    (input.rear + 1) % nevents = (input.front + (events.length + 1)) % nevents := by
  rw [queued.rear, Nat.mod_add_mod, Nat.add_assoc]

/-- The kernel panics with the 128th unread event. -/
theorem Queued.full_iff (queued : Queued events input) (ev : InputEvent) :
    pushEvent input ev = none ↔ events.length + 1 = nevents := by
  have inside := queued.inside
  have room := queued.room
  have stops : pushEvent input ev = none ↔ (input.rear + 1) % nevents = input.front := by
    simp [pushEvent]
  rw [stops, queued.next]
  constructor
  · intro wrapped
    by_contra space
    have apart := @ring_index_ne nevents input.front 0 (events.length + 1) (Nat.zero_lt_succ _)
      (by omega)
    rw [Nat.add_zero, Nat.mod_eq_of_lt inside] at apart
    exact apart wrapped.symm
  · intro full
    rw [full, Nat.add_mod_right, Nat.mod_eq_of_lt inside]

theorem Queued.pushed (queued : Queued events input) (taken : pushEvent input ev = some input') :
    Queued (events ++ [ev]) input' := by
  have room : events.length + 1 ≠ nevents := by
    intro full
    rw [(queued.full_iff ev).mpr full] at taken
    cases taken
  have space := queued.room
  simp only [pushEvent] at taken
  split at taken
  · cases taken
  · cases taken
    constructor
    · exact queued.inside
    · rw [List.length_append, List.length_singleton]
      omega
    · rw [List.length_append, List.length_singleton]
      exact queued.next
    · rw [List.length_append, List.length_singleton]
      dsimp only
      rw [queued.rear, window_push _ space, queued.events]

theorem Queued.empty_iff (queued : Queued events input) : popEvent input = none ↔ events = [] := by
  have inside := queued.inside
  have stops : popEvent input = none ↔ input.rear = input.front := by simp [popEvent]
  rw [stops, queued.rear]
  constructor
  · intro met
    by_contra some
    have apart := @ring_index_ne nevents input.front 0 events.length
      (List.length_pos_of_ne_nil some) (by have room := queued.room; omega)
    rw [Nat.add_zero, Nat.mod_eq_of_lt inside] at apart
    exact apart met.symm
  · rintro rfl
    exact Nat.mod_eq_of_lt inside

/-- The oldest unread event is taken. -/
theorem Queued.popped (queued : Queued (first :: events) input) :
    ∃ input', popEvent input = some (input', first) ∧ Queued events input' ∧
      input' = { input with front := (input.front + 1) % nevents } := by
  have inside := queued.inside
  have room := queued.room
  have rear := queued.rear
  have stored := queued.events
  rw [List.length_cons] at room rear stored
  rw [window, Nat.mod_eq_of_lt inside] at stored
  obtain ⟨front, rest⟩ := List.cons.inj stored
  have filled : input.rear ≠ input.front := by
    intro met
    have empty := (queued.empty_iff).mp (by rw [popEvent, if_pos met])
    cases empty
  refine ⟨_, ?_, ?_, rfl⟩
  · rw [popEvent, if_neg filled, front]
  · constructor
    · exact Nat.mod_lt _ (by decide)
    · omega
    · dsimp only
      rw [rear, Nat.mod_add_mod]
      congr 1
      omega
    · exact (window_congr _ (Nat.mod_mod _ _) _).trans rest

end Ring

section Device

/-- What holds of the keyboard after these strokes. -/
structure Relays (strokes : List Stroke) (dev : Keyboard) : Prop where
  flags : Heeds strokes dev.input
  ring : Queued ((typedEvents strokes).drop dev.calls.length) dev.input
  counted : dev.calls.length + dev.passed + dev.eventSem + dev.owed = (typedEvents strokes).length
  answers : ∀ (k : Nat) (call : InputCall), dev.calls[k]? = some call →
    ∃ ev, (typedEvents strokes)[k]? = some ev ∧
      call.stored = if sizeofEvent ≤ call.count then some ev else none

variable {strokes : List Stroke} {stroke : Stroke} {dev next : Keyboard} {ev : InputEvent}

theorem init_relays : Relays [] inputInit where
  flags := ⟨rfl, rfl, rfl, rfl⟩
  ring := ⟨by decide, by decide, rfl, rfl⟩
  counted := rfl
  answers := by simp [inputInit]

theorem push_keeps_flags {input input' : Input} (heeds : Heeds strokes input)
    (taken : pushEvent input ev = some input') : Heeds strokes input' := by
  simp only [pushEvent] at taken
  split at taken
  · cases taken
  · cases taken
    exact ⟨heeds.capslock, heeds.shiftDown, heeds.ctrlDown, heeds.altDown⟩

/-- The stroke types nothing. -/
theorem Relays.silent (relays : Relays strokes dev) (idle : dev.owed = 0)
    (silent : meaning strokes stroke = none) {input : Input}
    (heeds : Heeds (strokes ++ [stroke]) input) (same : dev.input.SameRing input) :
    Relays (strokes ++ [stroke]) { dev with input := input, owed := 0 } := by
  have events : typedEvents (strokes ++ [stroke]) = typedEvents strokes := by
    rw [typed_events_concat, silent]
    exact List.append_nil _
  constructor
  · exact heeds
  · rw [events]
    exact relays.ring.same same
  · rw [events, ← relays.counted, idle]
  · rw [events]
    exact relays.answers

/-- The stroke types an event, and there is room for it. -/
theorem Relays.typing (relays : Relays strokes dev) (idle : dev.owed = 0)
    (types : meaning strokes stroke = some ev) {input : Input}
    (heeds : Heeds (strokes ++ [stroke]) input)
    (ring : Queued ((typedEvents strokes).drop dev.calls.length ++ [ev]) input) :
    Relays (strokes ++ [stroke]) { dev with input := input, owed := 1 } := by
  have counted := relays.counted
  have events : typedEvents (strokes ++ [stroke]) = typedEvents strokes ++ [ev] := by
    rw [typed_events_concat, types]
    rfl
  constructor
  · exact heeds
  · rw [events, List.drop_append_of_le_length (by dsimp only; omega)]
    exact ring
  · rw [events, List.length_append, List.length_singleton]
    dsimp only
    omega
  · intro k call returned
    obtain ⟨answer, found, stored⟩ := relays.answers k call returned
    refine ⟨answer, ?_, stored⟩
    rw [events, List.getElem?_append_left (List.getElem?_eq_some_iff.mp found).1]
    exact found

theorem key_relays (relays : Relays strokes dev)
    (stepped : keyboardStep (.key stroke) dev = some next) :
    Relays (strokes ++ [stroke]) next := by
  rw [keyboardStep] at stepped
  split at stepped
  case isFalse => cases stepped
  case isTrue ready =>
    obtain ⟨idle, inside⟩ := ready
    obtain ⟨⟨input, pushed⟩, taken, rfl⟩ := Option.map_eq_some_iff.mp stepped
    by_cases flag : stroke.keycode ∈ flagKeys
    · obtain ⟨flagged, same, heeds, ring⟩ := flag_key_heeded relays.flags inside flag
      rw [same] at taken
      cases taken
      exact relays.silent idle (meaning_nothing (flag_keys_blank _ flag)) heeds ring
    · have heeds := relays.flags.other flag
      rw [plain_key_pushed relays.flags inside flag] at taken
      cases types : meaning strokes stroke with
      | none =>
          rw [types] at taken
          cases taken
          exact relays.silent idle types heeds ⟨rfl, rfl, rfl⟩
      | some ev =>
          rw [types] at taken
          obtain ⟨input', stored, same⟩ := Option.map_eq_some_iff.mp taken
          cases same
          exact relays.typing idle types (push_keeps_flags heeds stored)
            (relays.ring.pushed stored)

/-- A reader behind the semaphore gets the first unread event. -/
theorem read_relays {passed : Nat} (relays : Relays strokes dev) (count : Nat)
    (waiting : dev.passed = passed + 1) :
    ∃ ev input, (typedEvents strokes)[dev.calls.length]? = some ev ∧
      popEvent dev.input = some (input, ev) ∧
      Relays strokes
        { dev with
          input := input
          passed := passed
          calls := dev.calls ++ [⟨count, if sizeofEvent ≤ count then some ev else none⟩] } := by
  have counted := relays.counted
  have below : dev.calls.length < (typedEvents strokes).length := by omega
  have ring := relays.ring
  rw [List.drop_eq_getElem_cons below] at ring
  obtain ⟨input, popped, rest, same⟩ := ring.popped
  refine ⟨_, input, List.getElem?_eq_getElem below, popped, ?_⟩
  constructor
  · obtain ⟨capslock, shiftDown, ctrlDown, altDown⟩ := relays.flags
    rw [same]
    exact ⟨capslock, shiftDown, ctrlDown, altDown⟩
  · rw [List.length_append, List.length_singleton]
    exact rest
  · rw [List.length_append, List.length_singleton]
    dsimp only
    omega
  · intro k call returned
    dsimp only at returned
    rcases Nat.lt_or_ge k dev.calls.length with earlier | later
    · rw [List.getElem?_append_left earlier] at returned
      exact relays.answers k call returned
    · rw [List.getElem?_append_right later] at returned
      rw [List.getElem?_singleton] at returned
      split at returned
      case isFalse => cases returned
      case isTrue last =>
        have here : k = dev.calls.length := by omega
        cases returned
        exact ⟨_, here ▸ List.getElem?_eq_getElem below, rfl⟩

theorem keyboard_relays (act : KeyboardAct) (strokes : List Stroke) (dev next : Keyboard)
    (relays : Relays strokes dev) (stepped : keyboardStep act dev = some next) :
    Relays (strokes ++ act.strokes) next := by
  cases act with
  | key stroke => exact key_relays relays stepped
  | signal =>
      have counted := relays.counted
      rw [keyboardStep] at stepped
      split at stepped
      case h_1 => cases stepped
      case h_2 owed pending =>
        cases stepped
        rw [KeyboardAct.strokes, List.append_nil]
        exact ⟨relays.flags, relays.ring, by dsimp only; omega, relays.answers⟩
  | pass =>
      have counted := relays.counted
      rw [keyboardStep] at stepped
      split at stepped
      case h_1 => cases stepped
      case h_2 value ready =>
        cases stepped
        rw [KeyboardAct.strokes, List.append_nil]
        exact ⟨relays.flags, relays.ring, by dsimp only; omega, relays.answers⟩
  | read count =>
      rw [keyboardStep] at stepped
      split at stepped
      case h_1 => cases stepped
      case h_2 passed waiting =>
        obtain ⟨ev, input, -, popped, kept⟩ := read_relays relays count waiting
        rw [popped] at stepped
        cases stepped
        rw [KeyboardAct.strokes, List.append_nil]
        exact kept

/-- The keys of a run. -/
def keysOf (acts : List KeyboardAct) : List Stroke := acts.flatMap KeyboardAct.strokes

theorem strokes_folded (acts : List KeyboardAct) (strokes : List Stroke) :
    acts.foldl (fun strokes act => strokes ++ act.strokes) strokes = strokes ++ keysOf acts := by
  induction acts generalizing strokes with
  | nil => exact (List.append_nil strokes).symm
  | cons act rest hypothesis =>
      rw [List.foldl_cons, hypothesis, keysOf, keysOf, List.flatMap_cons, List.append_assoc]

theorem run_relays (acts : List KeyboardAct)
    (ran : runSteps keyboardStep acts inputInit = some dev) :
    Relays (keysOf acts) dev := by
  have related := run_refines keyboardStep (fun act strokes dev next relays (_ : True) stepped =>
    keyboard_relays act strokes dev next relays stepped) acts [] inputInit dev init_relays
    (guarded_run_trivial keyboardStep acts inputInit) ran
  rwa [strokes_folded, List.nil_append] at related

/-- For any order of the keys and the readers: the k-th call that returns has got the k-th event that
was typed, a reader behind the semaphore finds an event, and a key is refused when 127 events are
unread and it types another one. -/
theorem events_read_in_order (acts : List KeyboardAct) (dev : Keyboard)
    (ran : runSteps keyboardStep acts inputInit = some dev) :
    (∀ (k : Nat) (call : InputCall), dev.calls[k]? = some call →
      ∃ ev, (typedEvents (keysOf acts))[k]? = some ev ∧
        call.stored = if sizeofEvent ≤ call.count then some ev else none) ∧
    (0 < dev.passed → ∀ count, (keyboardStep (.read count) dev).isSome) ∧
    ∀ stroke, dev.owed = 0 → stroke.keycode < keymapSize →
      (keyboardStep (.key stroke) dev = none ↔
        (meaning (keysOf acts) stroke).isSome ∧
          (typedEvents (keysOf acts)).length = dev.calls.length + (nevents - 1)) := by
  have relays := run_relays acts ran
  have counted := relays.counted
  refine ⟨relays.answers, fun waiting count => ?_, fun stroke idle inside => ?_⟩
  · obtain ⟨passed, some⟩ := Nat.exists_eq_succ_of_ne_zero (Nat.ne_of_gt waiting)
    obtain ⟨ev, input, -, popped, -⟩ := read_relays relays count some
    simp [keyboardStep, some, popped]
  · have enabled : dev.owed = 0 ∧ stroke.keycode < keymapSize := ⟨idle, inside⟩
    rw [keyboardStep, if_pos enabled, Option.map_eq_none_iff]
    by_cases flag : stroke.keycode ∈ flagKeys
    · obtain ⟨input, same, -⟩ := flag_key_heeded relays.flags inside flag
      rw [same, meaning_nothing (flag_keys_blank _ flag)]
      simp
    · rw [plain_key_pushed relays.flags inside flag]
      cases types : meaning (keysOf acts) stroke with
      | none => simp
      | some ev =>
          have full := relays.ring.full_iff ev
          rw [List.length_drop] at full
          rw [Option.elim_some, Option.map_eq_none_iff, full]
          unfold nevents
          simp only [Option.isSome_some, true_and]
          omega

/-- Shift and the key of `a`, then a reader. -/
def shiftedLetter : List KeyboardAct :=
  [.key ⟨true, keyLshift⟩, .key ⟨true, 43⟩, .signal, .pass, .read 4]

theorem events_read_in_order_shifted :
    ∃ dev, runSteps keyboardStep shiftedLetter inputInit = some dev ∧
      dev.calls = [⟨4, some ⟨false, false, 0x41⟩⟩] ∧
      ∃ ev, (typedEvents (keysOf shiftedLetter))[0]? = some ev ∧
        some ⟨false, false, 0x41⟩ = some ev :=
  ⟨_, rfl, rfl, (events_read_in_order shiftedLetter _ rfl).1 0 _ rfl⟩

end Device

end OsWorkbench.Kernel
