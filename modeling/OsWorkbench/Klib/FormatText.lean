import OsWorkbench.Klib.Printf

/-!
# The text of a format

The text is what a format gives in a buffer that has no end. In a buffer of `n` bytes the text is cut
behind its first `n - 1` characters, wherever in a conversion this may be.
-/

namespace OsWorkbench.Klib

open ByteStore

section Texts

variable (args : Arguments)

/-- The text of a conversion. -/
def conversionText (width : Int) (c : UInt8) (ap : Nat) : Option (List UInt8) :=
  let word := args.words ap
  if c = 0x63 then some [word.toUInt8]
  else if c = 0x75 then number width word.toNat
  else if c = 0x78 ∨ c = 0x70 then some (hexDigits 8 word)
  else if c = 0x64 then
    let ival := toInt32 word.toNat
    if ival < 0 then (number width (toInt32 (-ival)).toNat).map (0x2d :: ·)
    else number width ival.toNat
  else if c = 0x66 then args.doubles word (args.words (ap + 1))
  else if c = 0x73 then some ((args.strings word).takeWhile (· ≠ 0))
  else if isalpha c then none
  else some [c]

/-- The words that a conversion takes. -/
def taken (c : UInt8) : Nat :=
  if c = 0x66 then 2
  else if c = 0x63 ∨ c = 0x75 ∨ c = 0x78 ∨ c = 0x70 ∨ c = 0x64 ∨ c = 0x73 then 1
  else 0

/-- The text of a format, between directives or in one. -/
def formatText : Option Int → List UInt8 → Nat → Option (List UInt8)
  | _, [], _ => none
  | none, c :: p, ap =>
      if c = 0 then some []
      else if c = percent then formatText (some 0) p ap
      else (formatText none p ap).map (c :: ·)
  | some width, c :: p, ap =>
      if isdigit c then formatText (some (widen width c)) p ap
      else
        (conversionText args width c ap).bind fun text =>
          (formatText none p (ap + taken c)).map (text ++ ·)

end Texts

section Conversions

variable (args : Arguments) (n : UInt32) (width : Int)

theorem outputs_single (a : UInt8) (s : Printing) : outputs n [a] s = output n a s := by
  rw [outputs]
  cases output n a s with
  | error s => rfl
  | ok s => rfl

/-- How a conversion ends: with its text put out, or without a text. The sign that fills the buffer is
put out before it turns out that there is no text. -/
inductive Converted (c : UInt8) (s : Printing) : Prop
  | puts (text : List UInt8) (known : conversionText args width c s.ap = some text)
      (run : convert args n width c s = some (outputs n text { s with ap := s.ap + taken c }))
  | fails (known : conversionText args width c s.ap = none) (run : convert args n width c s = none)
  | signs (known : conversionText args width c s.ap = none) (full : ¬s.cnt < (n - 1).toNat)
      (run : convert args n width c s = some (outputs n [0x2d] { s with ap := s.ap + taken c }))

theorem convert_unsigned (s : Printing) : Converted args n width 0x75 s := by
  have text : conversionText args width 0x75 s.ap = number width (args.words s.ap).toNat := rfl
  have run : convert args n width 0x75 s = (number width (args.words s.ap).toNat).map fun num =>
    outputs n num { s with ap := s.ap + taken 0x75 } := rfl
  cases pushed : number width (args.words s.ap).toNat with
  | none => exact .fails (text.trans pushed) (by rw [run, pushed, Option.map_none])
  | some num => exact .puts num (text.trans pushed) (by rw [run, pushed, Option.map_some])

theorem signed_text (ap : Nat) : conversionText args width 0x64 ap =
    if toInt32 (args.words ap).toNat < 0 then
      (number width (toInt32 (-toInt32 (args.words ap).toNat)).toNat).map (0x2d :: ·)
    else number width (toInt32 (args.words ap).toNat).toNat := by
  rw [conversionText]
  dsimp only
  rw [if_neg (by decide), if_neg (by decide), if_neg (by decide), if_pos rfl]

theorem signed_run (s : Printing) : convert args n width 0x64 s =
    if toInt32 (args.words s.ap).toNat < 0 then
      match output n 0x2d { s with ap := s.ap + taken 0x64 } with
      | .error stopped => some (.error stopped)
      | .ok next => (number width (toInt32 (-toInt32 (args.words s.ap).toNat)).toNat).map fun num =>
          outputs n num next
    else (number width (toInt32 (args.words s.ap).toNat).toNat).map fun num =>
      outputs n num { s with ap := s.ap + taken 0x64 } := by
  have one : taken 0x64 = 1 := rfl
  rw [convert, one]
  dsimp only
  rw [if_neg (by decide), if_neg (by decide), if_neg (by decide)]
  refine (if_pos rfl).trans ?_
  cases output n 0x2d { s with ap := s.ap + 1 } with
  | error stopped => rfl
  | ok next => rfl

theorem convert_signed (s : Printing) : Converted args n width 0x64 s := by
  have text := signed_text args width s.ap
  have run := signed_run args n width s
  by_cases negative : toInt32 (args.words s.ap).toNat < 0
  · rw [if_pos negative] at text run
    cases pushed : number width (toInt32 (-toInt32 (args.words s.ap).toNat)).toNat with
    | none =>
        rw [pushed, Option.map_none] at text
        cases sign : output n 0x2d { s with ap := s.ap + taken 0x64 } with
        | error stopped =>
            refine .signs text (fun room => ?_) ?_
            · rw [output, if_pos room] at sign
              cases sign
            · rw [run, sign, outputs_single, sign]
        | ok next => exact .fails text (by rw [run, sign]; dsimp only; rw [pushed, Option.map_none])
    | some num =>
        rw [pushed, Option.map_some] at text
        refine .puts (0x2d :: num) text ?_
        rw [run, outputs, pushed]
        cases output n 0x2d { s with ap := s.ap + taken 0x64 } with
        | error stopped => rfl
        | ok next => rfl
  · rw [if_neg negative] at text run
    cases pushed : number width (toInt32 (args.words s.ap).toNat).toNat with
    | none => exact .fails (text.trans pushed) (by rw [run, pushed, Option.map_none])
    | some num => exact .puts num (text.trans pushed) (by rw [run, pushed, Option.map_some])

theorem convert_double (s : Printing) : Converted args n width 0x66 s := by
  have text : conversionText args width 0x66 s.ap =
      args.doubles (args.words s.ap) (args.words (s.ap + 1)) := rfl
  have run : convert args n width 0x66 s =
      (args.doubles (args.words s.ap) (args.words (s.ap + 1))).map fun text =>
        outputs n text { s with ap := s.ap + taken 0x66 } := rfl
  cases known : args.doubles (args.words s.ap) (args.words (s.ap + 1)) with
  | none => exact .fails (text.trans known) (by rw [run, known, Option.map_none])
  | some other => exact .puts other (text.trans known) (by rw [run, known, Option.map_some])

theorem convert_cases (c : UInt8) (s : Printing) : Converted args n width c s := by
  by_cases c = 0x63
  case pos letter =>
    subst letter
    exact .puts [(args.words s.ap).toUInt8] rfl (by rw [outputs_single]; rfl)
  case neg notC =>
  by_cases c = 0x75
  case pos letter => exact letter ▸ convert_unsigned args n width s
  case neg notU =>
  by_cases c = 0x78 ∨ c = 0x70
  case pos letter =>
    rcases letter with rfl | rfl
    · exact .puts (hexDigits 8 (args.words s.ap)) rfl rfl
    · exact .puts (hexDigits 8 (args.words s.ap)) rfl rfl
  case neg notX =>
  by_cases c = 0x64
  case pos letter => exact letter ▸ convert_signed args n width s
  case neg notD =>
  by_cases c = 0x66
  case pos letter => exact letter ▸ convert_double args n width s
  case neg notF =>
  by_cases c = 0x73
  case pos letter =>
    subst letter
    exact .puts ((args.strings (args.words s.ap)).takeWhile (· ≠ 0)) rfl rfl
  case neg notS =>
  have text : conversionText args width c s.ap = if isalpha c then none else some [c] := by
    rw [conversionText]
    dsimp only
    rw [if_neg notC, if_neg notU, if_neg notX, if_neg notD, if_neg notF, if_neg notS]
  have run : convert args n width c s = if isalpha c then none else some (output n c s) := by
    rw [convert]
    dsimp only
    rw [if_neg notC, if_neg notU, if_neg notX, if_neg notD, if_neg notF, if_neg notS]
  by_cases isalpha c
  case pos letter =>
    rw [if_pos letter] at text run
    exact .fails text run
  case neg plain =>
    rw [if_neg plain] at text run
    have nothing : taken c = 0 := by
      obtain ⟨notX, notP⟩ := not_or.mp notX
      rw [taken, if_neg notF, if_neg]
      rintro (same | same | same | same | same | same) <;> contradiction
    exact .puts [c] text (by rw [run, outputs_single, nothing]; rfl)

end Conversions

section Growth

variable {args : Arguments} {n : UInt32} {s next last : Printing}

/-- The state at the end of an `output`, returned from or not. -/
def outcome : Except Printing Printing → Printing
  | .ok s => s
  | .error s => s

/-- What has been written stays, and there is never more than there is room for. -/
structure Grows (n : UInt32) (s next : Printing) : Prop where
  more : s.cnt ≤ next.cnt
  room : next.cnt ≤ (n - 1).toNat
  kept : ∀ i < s.cnt, next.out i = s.out i

theorem Grows.trans (first : Grows n s next) (second : Grows n next last) : Grows n s last where
  more := first.more.trans second.more
  room := second.room
  kept i before := (second.kept i (Nat.lt_of_lt_of_le before first.more)).trans (first.kept i before)

theorem output_grows (fits : s.cnt ≤ (n - 1).toNat) (a : UInt8) : Grows n s (outcome (output n a s)) := by
  rw [output]
  by_cases room : s.cnt < (n - 1).toNat
  · rw [if_pos room]
    exact ⟨Nat.le_succ _, room, fun i before => overlay_before before⟩
  · rw [if_neg room]
    exact ⟨Nat.le_refl _, fits, fun i before => overlay_before before⟩

theorem finish_grows (fits : s.cnt ≤ (n - 1).toNat) : Grows n s (finish n s) := by
  rw [finish, output]
  by_cases room : s.cnt < (n - 1).toNat
  · rw [if_pos room]
    exact ⟨Nat.le_refl _, fits, fun i before => overlay_before before⟩
  · rw [if_neg room]
    exact ⟨Nat.le_refl _, fits, fun i before => overlay_before before⟩

theorem outputs_grows (fits : s.cnt ≤ (n - 1).toNat) (text : List UInt8) :
    Grows n s (outcome (outputs n text s)) := by
  induction text generalizing s with
  | nil => exact ⟨Nat.le_refl _, fits, fun _ _ => rfl⟩
  | cons a rest hypothesis =>
      have first := output_grows fits a
      rw [outputs]
      cases put : output n a s with
      | error stopped =>
          rw [put] at first
          exact first
      | ok next =>
          rw [put] at first
          exact first.trans (hypothesis first.room)

theorem convert_grows {width : Int} {c : UInt8} {result : Except Printing Printing}
    (run : convert args n width c s = some result) (fits : s.cnt ≤ (n - 1).toNat) :
    Grows n s (outcome result) := by
  have puts (text : List UInt8) (also : convert args n width c s =
      some (outputs n text { s with ap := s.ap + taken c })) : Grows n s (outcome result) := by
    obtain rfl := Option.some.inj (run.symm.trans also)
    have grows := @outputs_grows n { s with ap := s.ap + taken c } fits text
    exact ⟨grows.more, grows.room, grows.kept⟩
  cases convert_cases args n width c s with
  | puts text _ also => exact puts text also
  | fails _ nothing => exact absurd (run.symm.trans nothing) (Option.some_ne_none result)
  | signs _ _ also => exact puts [0x2d] also

theorem print_loop_grows {mode : Option Int} {fmt : List UInt8}
    (run : printLoop args n mode fmt s = some last) (fits : s.cnt ≤ (n - 1).toNat) : Grows n s last := by
  induction fmt generalizing mode s with
  | nil =>
      rw [printLoop] at run
      exact absurd run (Option.some_ne_none last).symm
  | cons c p hypothesis =>
      cases mode with
      | none =>
          rw [printLoop] at run
          split at run
          next nul =>
            exact Option.some.inj run ▸ finish_grows fits
          next live =>
            split at run
            next directive => exact hypothesis run fits
            next literal =>
              have first := output_grows fits c
              cases put : output n c s with
              | error stopped =>
                  rw [put] at run first
                  exact Option.some.inj run ▸ first
              | ok next =>
                  rw [put] at run first
                  exact first.trans (hypothesis run first.room)
      | some width =>
          rw [printLoop] at run
          split at run
          next digit => exact hypothesis run fits
          next letter =>
            cases converted : convert args n width c s with
            | none =>
                rw [converted] at run
                exact absurd run (Option.some_ne_none last).symm
            | some result =>
                have first := convert_grows converted fits
                rw [converted] at run
                cases result with
                | error stopped => exact Option.some.inj run ▸ first
                | ok next => exact first.trans (hypothesis run first.room)

end Growth

section Cut

variable {args : Arguments} {n : UInt32} {out : Bytes} {done text : List UInt8} {ap : Nat}

/-- The buffer after some text. -/
def holding (out : Bytes) (done : List UInt8) (ap : Nat) : Printing := ⟨overlay out 0 done, done.length, ap⟩

/-- The buffer after a text that does not fit. -/
def full (n : UInt32) (out : Bytes) (text : List UInt8) (ap : Nat) : Printing :=
  ⟨overlay out 0 (text.take (n - 1).toNat ++ [0]), (n - 1).toNat, ap⟩

theorem put_behind (out : Bytes) (done : List UInt8) (a : UInt8) :
    overlay (overlay out 0 done) done.length [a] = overlay out 0 (done ++ [a]) := by
  have behind := overlay_append out 0 done [a]
  rwa [Nat.zero_add] at behind

theorem output_fits (fits : done.length < (n - 1).toNat) (a : UInt8) :
    output n a (holding out done ap) = .ok (holding out (done ++ [a]) ap) := by
  have room : (holding out done ap).cnt < (n - 1).toNat := fits
  rw [output, if_pos room, holding, holding, put_behind, List.length_append, List.length_singleton]

theorem output_full (filled : done.length = (n - 1).toNat) (a : UInt8) :
    output n a (holding out done ap) = .error (full n out (done ++ a :: text) ap) := by
  have beyond : ¬(holding out done ap).cnt < (n - 1).toNat := by
    rw [holding, filled]
    exact lt_irrefl _
  rw [output, if_neg beyond, holding, full, put_behind, ← filled, List.take_left]

/-- A text is put behind the one that is there, or cut at the end of the buffer. -/
theorem outputs_holding (fits : done.length ≤ (n - 1).toNat) (text : List UInt8) :
    outputs n text (holding out done ap) =
      if (done ++ text).length ≤ (n - 1).toNat then .ok (holding out (done ++ text) ap)
      else .error (full n out (done ++ text) ap) := by
  induction text generalizing done with
  | nil =>
      rw [List.append_nil, if_pos fits]
      rfl
  | cons a rest hypothesis =>
      rw [outputs]
      rcases Nat.lt_or_eq_of_le fits with room | filled
      · have further : (done ++ [a]).length ≤ (n - 1).toNat := by
          rw [List.length_append]
          exact room
        rw [output_fits room]
        refine (hypothesis further).trans ?_
        rw [List.append_assoc, List.singleton_append]
      · have beyond : ¬(done ++ a :: rest).length ≤ (n - 1).toNat := by
          rw [List.length_append, List.length_cons]
          omega
        rw [@output_full n out done rest ap filled, if_neg beyond]
        rfl

/-- A conversion puts its text behind the one that is there. -/
theorem convert_text {width : Int} {c : UInt8} (known : conversionText args width c ap = some text)
    (fits : done.length ≤ (n - 1).toNat) : convert args n width c (holding out done ap) =
      some (if (done ++ text).length ≤ (n - 1).toNat then
        .ok (holding out (done ++ text) (ap + taken c))
      else .error (full n out (done ++ text) (ap + taken c))) := by
  cases convert_cases args n width c (holding out done ap) with
  | puts other also run =>
      obtain rfl := Option.some.inj (also.symm.trans known)
      exact run.trans (congrArg some (outputs_holding fits other))
  | fails also _ => exact absurd (also.symm.trans known) (Option.some_ne_none text).symm
  | signs also _ _ => exact absurd (also.symm.trans known) (Option.some_ne_none text).symm

/-- A conversion without a text ends the call without a result. -/
theorem convert_none {width : Int} {c : UInt8} (known : conversionText args width c ap = none)
    (room : done.length < (n - 1).toNat) : convert args n width c (holding out done ap) = none := by
  cases convert_cases args n width c (holding out done ap) with
  | puts other also _ => exact absurd (also.symm.trans known) (Option.some_ne_none other)
  | fails _ run => exact run
  | signs _ filled _ => exact absurd room filled

theorem finish_holding (fits : done.length ≤ (n - 1).toNat) :
    finish n (holding out done ap) = ⟨overlay out 0 (done ++ [0]), done.length, ap⟩ := by
  rw [finish]
  rcases Nat.lt_or_eq_of_le fits with room | filled
  · rw [output_fits room]
    dsimp only [holding]
    rw [List.length_append, List.length_singleton, Nat.add_sub_cancel]
  · rw [@output_full n out done [] ap filled]
    dsimp only [full]
    rw [← filled, List.take_left]

/-- The loop leaves the text of its format, cut where it does not fit. -/
theorem print_loop_text {mode : Option Int} {fmt : List UInt8}
    (known : formatText args mode fmt ap = some text) (fits : done.length ≤ (n - 1).toNat) :
    (printLoop args n mode fmt (holding out done ap)).map (fun s => (s.out, s.cnt)) =
      some (overlay out 0 ((done ++ text).take (n - 1).toNat ++ [0]),
        min (n - 1).toNat (done ++ text).length) := by
  have cut {all : List UInt8} (beyond : ¬all.length ≤ (n - 1).toNat) :
      (n - 1).toNat = min (n - 1).toNat all.length := (Nat.min_eq_left (Nat.le_of_not_le beyond)).symm
  fun_induction formatText args mode fmt ap generalizing done text with
  | case1 => exact absurd known (Option.some_ne_none text).symm
  | case2 p ap =>
      obtain rfl := Option.some.inj known
      rw [printLoop, if_pos rfl, Option.map_some, finish_holding fits, List.append_nil,
        List.take_of_length_le fits, Nat.min_eq_right fits]
  | case3 p ap live hypothesis =>
      rw [printLoop, if_neg live, if_pos rfl]
      exact hypothesis known fits
  | case4 c p ap live literal hypothesis =>
      obtain ⟨rest, later, rfl⟩ := Option.map_eq_some_iff.mp known
      rw [printLoop, if_neg live, if_neg literal]
      rcases Nat.lt_or_eq_of_le fits with room | filled
      · rw [output_fits room]
        have further : (done ++ [c]).length ≤ (n - 1).toNat := by
          rw [List.length_append]
          exact room
        refine (hypothesis later further).trans ?_
        rw [List.append_assoc, List.singleton_append]
      · have beyond : ¬(done ++ c :: rest).length ≤ (n - 1).toNat := by
          rw [List.length_append, List.length_cons]
          omega
        rw [@output_full n out done rest ap filled]
        dsimp only [full, Option.map_some]
        rw [← cut beyond]
  | case5 width c p ap digit hypothesis =>
      rw [printLoop, if_pos digit]
      exact hypothesis known fits
  | case6 width c p ap letter hypothesis =>
      obtain ⟨first, converted, known⟩ := Option.bind_eq_some_iff.mp known
      obtain ⟨rest, later, rfl⟩ := Option.map_eq_some_iff.mp known
      rw [printLoop, if_neg letter, convert_text converted fits, ← List.append_assoc]
      by_cases room : (done ++ first).length ≤ (n - 1).toNat
      · rw [if_pos room]
        exact hypothesis later room
      · have beyond : ¬(done ++ first ++ rest).length ≤ (n - 1).toNat := by
          rw [List.length_append]
          omega
        rw [if_neg room]
        dsimp only [full, Option.map_some]
        rw [← cut beyond, List.take_append_of_le_length (Nat.le_of_not_le room)]

/-- `vsnprintf` on a format with a text. -/
theorem vsnprintf_text {fmt : List UInt8} (known : formatText args none fmt 0 = some text)
    (out : Bytes) (n : UInt32) : vsnprintf args out n fmt =
      some (overlay out 0 (text.take (n - 1).toNat ++ [0]),
        toInt32 (min (n - 1).toNat text.length : Nat)) := by
  have start : (⟨out, 0, 0⟩ : Printing) = holding out [] 0 := by
    rw [holding, overlay_nil, List.length_nil]
  have left := @print_loop_text args n out [] text 0 none fmt known (Nat.zero_le _)
  rw [← start, List.nil_append] at left
  obtain ⟨s, printed, same⟩ := Option.map_eq_some_iff.mp left
  obtain ⟨outIs, cntIs⟩ := Prod.mk.inj same
  rw [vsnprintf, printed, Option.map_some, outIs, cntIs]

end Cut

end OsWorkbench.Klib
