import TapeCompiler.Proofs.Representation

/-! # Statements and their code

The run of a lowered program and the run of the interpreter on its tree go side by side.  Every
step of the interpreter is one or more steps of the function (`lowering_simulation`), whose every
state is `Safe`: it does not fault, and what it is about to read or write is on the tape.

The interpreter keeps a list of pending statements, the function a place in its code.  `Resumes`
relates the two.  A loop that has been entered is pending again behind its body, and there its
place is the second of its tests: the one at the end of the body, not the one in front of the loop.
-/

namespace TapeCompiler.Lowering

open Qbe (Address Data Host Item Memory State listingOf)

variable {α : Type} {layout : Tape} {host : Host} {program : List (Statement α)}

/-! ## Safe states -/

/-- A state that does not fault and whose next access, if any, is on the tape. -/
def Safe (layout : Tape) (host : Host) (program : List (Statement α)) (s : State) : Prop :=
  Qbe.step (mainFunction layout program) host s ≠ .done .fault ∧
    ∀ a n, s.access? = some (a, n) → OnTape layout host s.data a n

/-- A state that does not fault and is about to access nothing. -/
def Quiet (layout : Tape) (host : Host) (program : List (Statement α)) (s : State) : Prop :=
  Qbe.step (mainFunction layout program) host s ≠ .done .fault ∧ s.access? = none

theorem Quiet.safe {s : State} (h : Quiet layout host program s) :
    Safe layout host program s :=
  ⟨h.1, fun a n hac => by rw [h.2] at hac; cases hac⟩

/-! ## Single steps

The function stands at a list of items: the rest of the items of the program. -/

section Steps

variable {d d' : Data} {i : Qbe.Instr} {rest rest' : List Item}

theorem step_instr (hexec : d.execute host i = some d') :
    Qbe.step (mainFunction layout program) host ⟨listingOf (.instr i :: rest), d⟩ =
      .next ⟨listingOf rest, d'⟩ := by
  simp only [Qbe.step, listingOf, hexec]

theorem step_label (name : String) (d : Data) (rest : List Item) :
    Qbe.step (mainFunction layout program) host ⟨listingOf (.label name :: rest), d⟩ =
      .next ⟨listingOf rest, d⟩ := rfl

/-- A jump ends its block, so a label or nothing stands behind it. -/
theorem step_jnz {cond : Qbe.Value} {ifNonZero ifZero : String} {v : BitVec 64}
    (hblock : (listingOf rest).instrs = []) (hv : d.operand .word cond = some v)
    (htarget : .label (if v = 0 then ifZero else ifNonZero) :: rest' <:+ body layout program) :
    Qbe.step (mainFunction layout program) host
        ⟨listingOf (.jump (.jnz cond ifNonZero ifZero) :: rest), d⟩ =
      .next ⟨listingOf rest', d⟩ := by
  have henter := Qbe.enter_of_suffix (nodup_body layout program) htarget
  simp only [Qbe.step, listingOf, hblock, hv, mainFunction, henter]

theorem step_ret (hblock : (listingOf rest).instrs = []) (d : Data) (n : Nat) :
    Qbe.step (mainFunction layout program) host
        ⟨listingOf (.jump (.ret (some (const n))) :: rest), d⟩ =
      .done (.returned (BitVec.ofNat 32 n) d.output d.input) := by
  have hvalue : d.operand .word (const n) = some (Qbe.BaseType.word.wrap (BitVec.ofNat 64 n)) :=
    operand_const d .word n
  have hstatus : (Qbe.BaseType.word.wrap (BitVec.ofNat 64 n)).setWidth 32 = BitVec.ofNat 32 n := by
    rw [setWidth_wrap (Nat.le_refl 32), BitVec.setWidth_ofNat_of_le (by decide)]
  simp only [Qbe.step, listingOf, hblock, Option.bind_some, hvalue]
  simp only [mainFunction, emptyMain, Qbe.Function.empty, hstatus]

theorem quiet_instr (hexec : d.execute host i = some d') (haccess : d.access? i = none) :
    Quiet layout host program ⟨listingOf (.instr i :: rest), d⟩ := by
  refine ⟨?_, haccess⟩
  rw [step_instr hexec]
  exact fun h => by cases h

theorem safe_instr (hexec : d.execute host i = some d')
    (haccess : ∀ a n, d.access? i = some (a, n) → OnTape layout host d a n) :
    Safe layout host program ⟨listingOf (.instr i :: rest), d⟩ := by
  refine ⟨?_, haccess⟩
  rw [step_instr hexec]
  exact fun h => by cases h

end Steps

/-! ## Statements -/

/-- The function, standing at `items` with the data `d`, runs safely to `r`. -/
abbrev Runs (layout : Tape) (host : Host) (program : List (Statement α)) (items : List Item)
    (d : Data) (r : Progress State Ending) : Prop :=
  Stretch (Qbe.step (mainFunction layout program) host) (Safe layout host program)
    ⟨listingOf items, d⟩ r

section Statements

variable {s s' : Store layout.size layout.stride.width} {d d' : Data} {rest rest' : List Item}
  {r : Progress State Ending}

theorem Runs.instr {i : Qbe.Instr} (hexec : d.execute host i = some d')
    (haccess : ∀ a n, d.access? i = some (a, n) → OnTape layout host d a n)
    (h : Runs layout host program rest d' r) :
    Runs layout host program (.instr i :: rest) d r :=
  .cons (safe_instr hexec haccess) (step_instr hexec) h

theorem Runs.quiet {i : Qbe.Instr} (hexec : d.execute host i = some d')
    (haccess : d.access? i = none) (h : Runs layout host program rest d' r) :
    Runs layout host program (.instr i :: rest) d r :=
  .cons (quiet_instr hexec haccess).safe (step_instr hexec) h

theorem Runs.final {i : Qbe.Instr} (hexec : d.execute host i = some d')
    (haccess : ∀ a n, d.access? i = some (a, n) → OnTape layout host d a n) :
    Runs layout host program (.instr i :: rest) d (.next ⟨listingOf rest, d'⟩) :=
  .last (safe_instr hexec haccess) (step_instr hexec)

theorem Runs.jump {j : Qbe.Jump} (hblock : (listingOf rest).instrs = [])
    (hstep : Qbe.step (mainFunction layout program) host ⟨listingOf (.jump j :: rest), d⟩ = r)
    (hr : r ≠ .done .fault) : Runs layout host program (.jump j :: rest) d r := by
  refine .last (Quiet.safe ⟨?_, ?_⟩) hstep
  · rwa [hstep]
  · simp only [State.access?, listingOf, hblock, List.head?_nil, Option.bind_none]

theorem Runs.jnz {cond : Qbe.Value} {ifNonZero ifZero : String} {v : BitVec 64}
    (hblock : (listingOf rest).instrs = []) (hv : d.operand .word cond = some v)
    (htarget : .label (if v = 0 then ifZero else ifNonZero) :: rest' <:+ body layout program) :
    Runs layout host program (.jump (.jnz cond ifNonZero ifZero) :: rest) d
      (.next ⟨listingOf rest', d⟩) :=
  .jump hblock (step_jnz hblock hv htarget) (fun h => by cases h)

theorem Runs.ret (hblock : (listingOf rest).instrs = []) (d : Data) (n : Nat) :
    Runs layout host program (.jump (.ret (some (const n))) :: rest) d
      (.done (.returned (BitVec.ofNat 32 n) d.output d.input)) :=
  .jump hblock (step_ret hblock d n) (fun h => by cases h)

/-! ### Moves -/

/-- The two instructions of a guard leave 1 in its second temporary if the offset of the pointer is
on the tape, and else 0. -/
theorem runs_compare (accepted : layout.Accepted) {x : Int} {t : Nat} {verdict : BitVec 64}
    (htape : d.temps "tape" = some ⟨.long, base layout host⟩)
    (hptr : d.temps "ptr" = some ⟨.long, offsetAddress layout host x⟩)
    (hlow : -2 ^ 60 < x) (hhigh : x < 2 ^ 60)
    (hverdict : verdict =
      if 0 ≤ x ∧ x < ((layout.size * layout.stride.bytes : Nat) : Int) then 1 else 0)
    (h : Runs layout host program rest
      ((d.set ("v" ++ Number.natText t) ⟨.long, BitVec.ofInt 64 x⟩).set
        ("v" ++ Number.natText (t + 1)) ⟨.word, verdict⟩) r) :
    Runs layout host program
      (.instr (.assign (temp t) .long (.sub ptr tape)) ::
        .instr (.assign (temp (t + 1)) .word (.above .long (.const layout.addressable) (temp t))) ::
          rest) d r := by
  have hregion := accepted.region_lt
  have hlimit : layout.size * layout.stride.bytes < 2 ^ 60 := by omega
  refine .quiet (execute_offset htape hptr t) rfl (.quiet ?_ rfl h)
  rw [accepted.addressable_eq, execute_above, hverdict]
  simp only [ofInt_lt_iff hlimit hlow hhigh]

/-- A guard lets the pointer pass where it points at a cell. -/
theorem runs_guard (accepted : layout.Accepted) {t l : Nat}
    (hsuffix : guard layout.addressable t l ++ rest <:+ body layout program)
    (h : Represents layout host s d) :
    ∃ d', Runs layout host program (guard layout.addressable t l ++ rest) d
        (.next ⟨listingOf rest, d'⟩) ∧ Represents layout host s d' := by
  have hregion := accepted.region_lt
  have hwithin := cell_within layout s.pointer.isLt
  obtain ⟨n, hn⟩ := cellBytes_eq_succ layout.stride
  have hptr := h.pointer
  rw [cellAddress_eq, ← Int.natCast_mul] at hptr
  -- The label to go on at is the last item of the guard.
  have hcont : .label (label "cont" l) :: rest <:+ body layout program :=
    .trans ⟨(guard layout.addressable t l).dropLast, rfl⟩ hsuffix
  have hon : 0 ≤ ((s.pointer * layout.stride.bytes : Nat) : Int) ∧
      ((s.pointer * layout.stride.bytes : Nat) : Int) <
        ((layout.size * layout.stride.bytes : Nat) : Int) := by
    omega
  refine ⟨_, runs_compare accepted h.tape hptr (by omega) (by omega) (if_pos hon).symm
    (.jnz rfl (operand_temp _ (t + 1) ⟨.word, 1⟩ .word) hcont), ?_⟩
  exact (h.set_temp t _).set_temp (t + 1) _

/-- A guard stops the program where the pointer is off the tape. -/
theorem runs_guard_halt (accepted : layout.Accepted) {t l : Nat} {x : Int}
    (hsuffix : guard layout.addressable t l ++ rest <:+ body layout program)
    (htape : d.temps "tape" = some ⟨.long, base layout host⟩)
    (hptr : d.temps "ptr" = some ⟨.long, offsetAddress layout host x⟩)
    (hlow : -2 ^ 60 < x) (hhigh : x < 2 ^ 60)
    (hoff : ¬(0 ≤ x ∧ x < ((layout.size * layout.stride.bytes : Nat) : Int))) :
    Runs layout host program (guard layout.addressable t l ++ rest) d
      (.done (.returned 1 d.output d.input)) := by
  have hhalt : .label (label "halt" (l + 1)) :: .jump (.ret (some (const 1))) ::
      .label (label "cont" l) :: rest <:+ body layout program :=
    .trans ⟨(guard layout.addressable t l).take 3, rfl⟩ hsuffix
  apply runs_compare accepted htape hptr hlow hhigh (if_neg hoff).symm
  exact Stretch.trans (Runs.jnz rfl (operand_temp _ (t + 1) ⟨.word, 0⟩ .word) hhalt)
    (Runs.ret rfl _ 1)

/-! ### Arithmetic, input and output -/

theorem runs_change (accepted : layout.Accepted) {t : Nat} {count : Number} {amount : Int}
    {operation : Qbe.Value → Qbe.Value → Qbe.Operation} {v : BitVec 64}
    (h : Represents layout host s d)
    (haccess : ∀ d v w, Data.access? d (.assign (temp (t + 1)) .word (operation v w)) = none)
    (hexec : (d.set ("v" ++ Number.natText t) (cellScalar s)).evaluate host .word
        (operation (temp t) (.const count)) = some (v, d.memory))
    (hv : (Qbe.BaseType.word.wrap v).setWidth layout.stride.width =
      s.cell + BitVec.ofInt layout.stride.width amount) :
    ∃ d', Runs layout host program (change operation layout count t ++ rest) d
        (.next ⟨listingOf rest, d'⟩) ∧ Represents layout host (s.change amount) d' := by
  have hload := h.set_temp t (cellScalar s)
  have hresult := hload.set_temp (t + 1) ⟨.word, v⟩
  obtain ⟨d', hstore, hd'⟩ := execute_store hresult accepted (operand_temp _ (t + 1) _ .word) hv
  exact ⟨d', .instr (execute_load h t) (onTape_load h accepted t)
    (.quiet (Data.execute_assign hexec) (haccess _ _ _)
      (.final hstore (onTape_store hresult accepted _))), hd'⟩

theorem runs_read (accepted : layout.Accepted) (h : Represents layout host s d) :
    ∃ d', Runs layout host program (transfer "read" 0 :: rest) d (.next ⟨listingOf rest, d'⟩) ∧
      Represents layout host s.read d' := by
  obtain ⟨d', hexec, hd'⟩ := execute_read h accepted
  exact ⟨d', .final hexec (onTape_transfer h accepted "read" 0), hd'⟩

theorem runs_write (accepted : layout.Accepted) (h : Represents layout host s d) :
    ∃ d', Runs layout host program (transfer "write" 1 :: rest) d (.next ⟨listingOf rest, d'⟩) ∧
      Represents layout host s.write d' := by
  obtain ⟨d', hexec, hd'⟩ := execute_write h
  exact ⟨d', .final hexec (onTape_transfer h accepted "write" 1), hd'⟩

/-! ### Loops -/

theorem runs_test (accepted : layout.Accepted) {t l : Nat} (h : Represents layout host s d)
    (hblock : (listingOf rest).instrs = [])
    (htarget : .label (if s.cell = 0 then label "end" l else label "loop" l) :: rest' <:+
      body layout program) :
    ∃ d', Runs layout host program (test layout.stride t l ++ rest) d
        (.next ⟨listingOf rest', d'⟩) ∧ Represents layout host s d' := by
  have hcond := operand_temp d t (cellScalar s) .word
  have hzero : Qbe.BaseType.word.wrap (cellScalar s).bits = 0 ↔ s.cell = 0 := wrap_cell_eq_zero s
  refine ⟨_, .instr (execute_load h t) (onTape_load h accepted t) (.jnz hblock hcond ?_),
    h.set_temp t _⟩
  simpa only [hzero] using htarget

end Statements

/-! ## The simulation -/

/-- The items at which a function stands when some statements are still to be done. -/
inductive Resumes (layout : Tape) (items : List Item) : List (Statement α) → List Item → Prop where
  | done : Resumes layout items [] [.jump (.ret (some (const 0)))]
  | next {t l : Nat} {s : Statement α} {pending : List (Statement α)} {rest : List Item} :
      statement layout t l s ++ rest <:+ items → Resumes layout items pending rest →
      Resumes layout items (s :: pending) (statement layout t l s ++ rest)
  | again {t t' l : Nat} {loopBody : List (Statement α)} {note : α} {pending : List (Statement α)}
      {rest : List Item} :
      .label (label "loop" l) :: (statements layout t (l + 1) loopBody ++
        (test layout.stride t' l ++ .label (label "end" l) :: rest)) <:+ items →
      Resumes layout items pending rest →
      Resumes layout items (.loop loopBody note :: pending)
        (test layout.stride t' l ++ .label (label "end" l) :: rest)

/-- The items of a list of statements come before those of what is done behind them. -/
theorem Resumes.append {items rest : List Item} {pending : List (Statement α)}
    (h : Resumes layout items pending rest) (ss : List (Statement α)) (t l : Nat)
    (hsuffix : statements layout t l ss ++ rest <:+ items) :
    Resumes layout items (ss ++ pending) (statements layout t l ss ++ rest) := by
  induction ss generalizing t l with
  | nil => exact h
  | cons s ss ih =>
    simp only [statements, List.append_assoc] at hsuffix ⊢
    exact .next hsuffix (ih _ _ (.trans (List.suffix_append _ _) hsuffix))

/-- A pending list of statements with a store, and the place and the data of a function. -/
inductive Related (layout : Tape) (host : Host) (program : List (Statement α)) :
    Interpreter.Config α layout.size layout.stride.width → State → Prop where
  | intro {pending : List (Statement α)} {s : Store layout.size layout.stride.width}
      {items : List Item} {d : Data} :
      Resumes layout (body layout program) pending items → Represents layout host s d →
      Statement.countsSafeAll pending →
      Related layout host program ⟨pending, s⟩ ⟨listingOf items, d⟩

theorem simulate_loop (accepted : layout.Accepted) {t t₁ t₂ l : Nat}
    {loopBody pending : List (Statement α)} {note : α} {rest rest' : List Item}
    {s : Store layout.size layout.stride.width} {d : Data} (h : Represents layout host s d)
    (hcounts : Statement.countsSafeAll (.loop loopBody note :: pending))
    (hblock : (listingOf rest').instrs = [])
    (hsuffix : .label (label "loop" l) :: (statements layout t₁ (l + 1) loopBody ++
      (test layout.stride t₂ l ++ .label (label "end" l) :: rest)) <:+ body layout program)
    (hpending : Resumes layout (body layout program) pending rest) :
    ∃ r, Runs layout host program (test layout.stride t l ++ rest') d r ∧
      Progress.Agree (Related layout host program)
        (Interpreter.step ⟨.loop loopBody note :: pending, s⟩) r := by
  have hcounts' := hcounts
  simp only [Statement.countsSafeAll, Statement.countsSafe, Bool.and_eq_true] at hcounts'
  by_cases hcell : s.cell = 0
  · -- A zero cell leads behind the loop, from either test.
    have htarget : .label (if s.cell = 0 then label "end" l else label "loop" l) :: rest <:+
        body layout program := by
      rw [if_pos hcell]
      refine .trans ?_ hsuffix
      exact .trans (List.suffix_append _ _) (.trans (List.suffix_append _ _) (List.suffix_cons _ _))
    obtain ⟨d', hruns, hd'⟩ := runs_test accepted h hblock htarget
    refine ⟨_, hruns, ?_⟩
    rw [Interpreter.step, if_pos hcell]
    exact .next (.intro hpending hd' hcounts'.2)
  · have htarget : .label (if s.cell = 0 then label "end" l else label "loop" l) ::
        (statements layout t₁ (l + 1) loopBody ++
          (test layout.stride t₂ l ++ .label (label "end" l) :: rest)) <:+ body layout program := by
      rw [if_neg hcell]
      exact hsuffix
    obtain ⟨d', hruns, hd'⟩ := runs_test accepted h hblock htarget
    refine ⟨_, hruns, ?_⟩
    rw [Interpreter.step, if_neg hcell]
    -- Behind the body the loop stands at its second test.
    have hloop : Resumes layout (body layout program) (.loop loopBody note :: pending) _ :=
      .again hsuffix hpending
    have hagain := hloop.append loopBody t₁ (l + 1) (.trans (List.suffix_cons _ _) hsuffix)
    refine .next (.intro hagain hd' ?_)
    rw [Statement.countsSafeAll_append, hcounts'.1, hcounts]
    rfl

/-- A move and its guard, whatever the direction: `distance` is how far the first instruction
takes the pointer. -/
theorem simulate_move (accepted : layout.Accepted) {t l n : Nat} {command : Counted} {note : α}
    {distance : Int} {operation : Qbe.Value → Qbe.Value → Qbe.Operation}
    {pending : List (Statement α)} {rest : List Item}
    {s : Store layout.size layout.stride.width} {d : Data}
    (h : Represents layout host s d) (hcounts : Statement.countsSafeAll pending)
    (hsuffix : move operation layout (.ofNat n) t l ++ rest <:+ body layout program)
    (hpending : Resumes layout (body layout program) pending rest)
    (hact : s.act command n = s.shift distance) (hdistance : distance.natAbs < Number.safeLimit)
    (haccess : ∀ v, d.access? (.assign ptr .long (operation ptr v)) = none)
    (hexec : d.execute host
        (.assign ptr .long (operation ptr (.const ((Number.ofNat n).scale layout.stride.bytes)))) =
      some (d.set "ptr"
        ⟨.long, offsetAddress layout host ((s.pointer + distance) * layout.stride.bytes)⟩)) :
    ∃ r, Runs layout host program (move operation layout (.ofNat n) t l ++ rest) d r ∧
      Progress.Agree (Related layout host program)
        (Interpreter.step ⟨.counted command (.ofNat n) note :: pending, s⟩) r := by
  simp only [Interpreter.step, Number.index?_ofNat, hact]
  have hguard : guard layout.addressable t l ++ rest <:+ body layout program :=
    .trans (List.suffix_cons _ _) hsuffix
  cases hs : s.shift distance with
  | some s' =>
    obtain ⟨d', hruns, hd'⟩ := runs_guard accepted hguard (h.shift hs)
    exact ⟨_, .quiet hexec (haccess _) hruns, .next (.intro hpending hd' hcounts)⟩
  | none =>
    -- Even then the pointer is within `2 ^ 60` of the tape, where the guard cannot be fooled.
    have hoff := (shift_isSome_iff s distance).not.1 (by simp [hs])
    obtain ⟨hlow, hhigh⟩ := offset_bounds accepted s.pointer hdistance
    have htape := h.tape
    rw [← d.temps_set_of_ne _ (by decide : "tape" ≠ "ptr")] at htape
    have hruns := runs_guard_halt accepted hguard htape (d.temps_set_self "ptr" _) hlow hhigh hoff
    refine ⟨_, .quiet hexec (haccess _) hruns, ?_⟩
    rw [Store.ending, ← h.output, ← h.input]
    exact .done

theorem simulate_counted (accepted : layout.Accepted) {t l : Nat} {command : Counted}
    {count : Number} {note : α} {pending : List (Statement α)} {rest : List Item}
    {s : Store layout.size layout.stride.width} {d : Data} (h : Represents layout host s d)
    (hcounts : Statement.countsSafeAll (.counted command count note :: pending))
    (hsuffix : statement layout t l (.counted command count note) ++ rest <:+ body layout program)
    (hpending : Resumes layout (body layout program) pending rest) :
    ∃ r, Runs layout host program (statement layout t l (.counted command count note) ++ rest) d r ∧
      Progress.Agree (Related layout host program)
        (Interpreter.step ⟨.counted command count note :: pending, s⟩) r := by
  simp only [Statement.countsSafeAll, Statement.countsSafe, Bool.and_eq_true] at hcounts
  obtain ⟨n, rfl, hpos, hsafe⟩ := Number.isCount_iff.1 hcounts.1
  have hscale := Number.scale_bytes hsafe layout.stride
  have hwidth := width_le layout.stride
  cases command with
  | moveLeft =>
    exact simulate_move accepted h hcounts.2 hsuffix hpending rfl (by omega) (fun _ => rfl)
      (by rw [hscale]; exact execute_moveLeft h n)
  | moveRight =>
    exact simulate_move accepted h hcounts.2 hsuffix hpending rfl (by omega) (fun _ => rfl)
      (by rw [hscale]; exact execute_moveRight h n)
  | increment =>
    obtain ⟨d', hruns, hd'⟩ := runs_change accepted h (fun _ _ _ => rfl)
      (Data.evaluate_add (operand_temp d t _ .word) (operand_const _ .word n))
      ((setWidth_wrap hwidth _).trans (word_add hwidth s.cell n))
    refine ⟨_, hruns, ?_⟩
    simp only [Interpreter.step, Number.index?_ofNat]
    exact .next (.intro hpending hd' hcounts.2)
  | decrement =>
    obtain ⟨d', hruns, hd'⟩ := runs_change accepted h (fun _ _ _ => rfl)
      (Data.evaluate_sub (operand_temp d t _ .word) (operand_const _ .word n))
      ((setWidth_wrap hwidth _).trans (word_sub hwidth s.cell n))
    refine ⟨_, hruns, ?_⟩
    simp only [Interpreter.step, Number.index?_ofNat]
    exact .next (.intro hpending hd' hcounts.2)

/-- Every step of the interpreter is a stretch of the run of the function. -/
theorem lowering_simulation (accepted : layout.Accepted) :
    Simulation Interpreter.step (Qbe.step (mainFunction layout program) host)
      (Safe layout host program) (Related layout host program) := by
  intro config state related
  cases related with
  | intro resumes h hcounts =>
    cases resumes with
    | done =>
      refine ⟨_, Runs.ret rfl _ 0, ?_⟩
      rw [Interpreter.step, Store.ending, ← h.output, ← h.input]
      exact .done
    | again hsuffix hpending => exact simulate_loop accepted h hcounts rfl hsuffix hpending
    | @next t l statement pending rest hsuffix hpending =>
      cases statement with
      | counted command count note => exact simulate_counted accepted h hcounts hsuffix hpending
      | read note =>
        obtain ⟨d', hruns, hd'⟩ := runs_read accepted h
        exact ⟨_, hruns, .next (.intro hpending hd' hcounts)⟩
      | write note =>
        obtain ⟨d', hruns, hd'⟩ := runs_write accepted h
        exact ⟨_, hruns, .next (.intro hpending hd' hcounts)⟩
      | loop loopBody note =>
        simp only [statement, List.append_assoc, List.cons_append, List.nil_append] at hsuffix ⊢
        have hloop := List.IsSuffix.trans (List.suffix_append _ _) hsuffix
        exact simulate_loop accepted h hcounts rfl hloop hpending

end TapeCompiler.Lowering
