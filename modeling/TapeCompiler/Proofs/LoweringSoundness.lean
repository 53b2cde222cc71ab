import TapeCompiler.Proofs.LoweringSimulation

/-! # Lowered programs do what their trees say

Before its first statement a lowered program allocates a region, clears it and points at its first
byte (`runs_prologue`).  From there on it is simulated by the interpreter.

* `lower_preserves_meaning`: the module ends as the interpreter of the tree does, and only then.
* `lower_stays_on_tape`: no state of its run is about to access a byte off the tape.
-/

namespace TapeCompiler.Lowering

open Qbe (Address Data Host Item Memory State listingOf)

variable {α : Type} {layout : Tape} {host : Host} {program : List (Statement α)}

/-! ## The prologue -/

/-- The region of the tape is all that is allocated, and all of it is zero. -/
def Cleared (layout : Tape) (host : Host) (m : Memory) : Prop :=
  ∀ x, m x =
    if (x - base layout host).toNat < 2 * (layout.size * layout.stride.bytes) then some 0 else none

theorem Cleared.offset {m : Memory} (h : Cleared layout host m) (accepted : layout.Accepted)
    {k : Nat} (hk : k < 2 * (layout.size * layout.stride.bytes)) :
    m (base layout host + BitVec.ofNat 64 k) = some 0 := by
  have hregion := accepted.region_lt
  rw [h, Memory.toNat_offset _ (by omega), if_pos hk]

/-- A cleared region holds a tape of zero cells. -/
theorem Cleared.represents {d : Data} (h : Cleared layout host d.memory)
    (accepted : layout.Accepted) (htape : d.temps "tape" = some ⟨.long, base layout host⟩)
    (hptr : d.temps "ptr" = some ⟨.long, base layout host⟩) (houtput : d.output = []) :
    Represents layout host (.start accepted.size_pos d.input) d where
  tape := htape
  pointer := by simpa [cellAddress, Store.start] using hptr
  cells := by
    intro i
    have hwithin := cell_within layout i.isLt
    rw [Memory.read_eq_some_iff]
    refine ⟨Qbe.length_toBytes _ _, fun j hj => ?_⟩
    rw [cellAddress, Memory.offset_add, h.offset accepted (by omega)]
    simp [Store.start, Qbe.toBytes_zero, hj]
  mapped := fun k hk => by rw [h.offset accepted hk]; rfl
  input := rfl
  output := houtput

theorem cleared_overlay (layout : Tape) (host : Host) :
    Cleared layout host
      ((Memory.allocate (fun _ => none) (base layout host)
          (2 * (layout.size * layout.stride.bytes)) host.contents).overlay (base layout host)
        (List.replicate (2 * (layout.size * layout.stride.bytes)) 0)) := by
  intro x
  simp only [Memory.overlay, Memory.allocate]
  split
  · rename_i hlt
    rw [List.getElem?_replicate_of_lt hlt, Option.some_or]
  · rename_i hge
    rw [List.getElem?_eq_none (by rw [List.length_replicate]; omega), Option.none_or]

theorem execute_alloc (accepted : layout.Accepted) (host : Host) (d : Data) :
    ∃ d', d.execute host (.assign tape .long (.alloc8 layout.allocated)) = some d' ∧
      d'.temps "tape" = some ⟨.long, base layout host⟩ ∧
      d'.memory = d.memory.allocate (base layout host) (2 * (layout.size * layout.stride.bytes))
        host.contents ∧
      d'.input = d.input ∧ d'.output = d.output := by
  have hregion := accepted.region_lt
  have hfits : 2 * (layout.size * layout.stride.bytes) ≤ 2 ^ 64 := by omega
  refine ⟨Data.set { d with memory := d.memory.allocate (base layout host) _ host.contents } "tape"
    ⟨.long, base layout host⟩, Data.execute_assign ?_, Data.temps_set_self _ _ _, rfl, rfl, rfl⟩
  simp only [Data.evaluate, accepted.allocated_eq, Number.index?_ofNat, if_pos hfits, base]

theorem mapped_allocate (accepted : layout.Accepted) (host : Host) (m : Memory) :
    Mapped layout host (m.allocate (base layout host) (2 * (layout.size * layout.stride.bytes))
      host.contents) := by
  intro k hk
  have hregion := accepted.region_lt
  rw [Memory.allocate, Memory.toNat_offset _ (by omega), if_pos hk, Option.isSome_some]

theorem execute_memset (accepted : layout.Accepted) {d : Data}
    (htape : d.temps "tape" = some ⟨.long, base layout host⟩)
    (hmemory : d.memory = Memory.allocate (fun _ => none) (base layout host)
      (2 * (layout.size * layout.stride.bytes)) host.contents) :
    ∃ d', d.execute host
        (.call "memset" [⟨.long, tape⟩, ⟨.word, const 0⟩, ⟨.long, .const layout.allocated⟩]) =
          some d' ∧
      Cleared layout host d'.memory ∧
      d'.temps = d.temps ∧ d'.input = d.input ∧ d'.output = d.output := by
  have hregion := accepted.region_lt
  have hlength : (BitVec.ofNat 64 (2 * (layout.size * layout.stride.bytes))).toNat =
      2 * (layout.size * layout.stride.bytes) := by
    rw [BitVec.toNat_ofNat, Nat.mod_eq_of_lt (by omega)]
  have hfill := operand_const d .word 0
  have hsize := operand_const d .long (2 * (layout.size * layout.stride.bytes))
  have hmapped : Mapped layout host d.memory := hmemory ▸ mapped_allocate accepted host _
  have hwrite : d.memory.write (base layout host)
        (List.replicate (2 * (layout.size * layout.stride.bytes)) 0#8) =
      some (d.memory.overlay (base layout host) (List.replicate _ 0#8)) :=
    Memory.write_eq_some fun k hk => hmapped k (by rwa [List.length_replicate] at hk)
  have hcleared := cleared_overlay layout host
  rw [← hmemory] at hcleared
  refine ⟨{ d with memory := d.memory.overlay (base layout host) (List.replicate _ 0#8) }, ?_,
    hcleared, rfl, rfl, rfl⟩
  simp only [Data.execute, Data.arguments, operand_tape htape, const, hfill, hsize,
    accepted.allocated_eq]
  simp [Data.call, hlength, hwrite, Qbe.BaseType.wrap]

theorem access_memset (d : Data) (args : List Qbe.Argument) :
    d.access? (.call "memset" args) = none := by
  simp only [Data.access?]
  split
  · exact if_neg (by decide)
  · rfl

theorem execute_copy {d : Data} {a : Address} (htape : d.temps "tape" = some ⟨.long, a⟩) :
    d.execute host (.assign ptr .long (.copy tape)) = some (d.set "ptr" ⟨.long, a⟩) := by
  apply Data.execute_assign
  simp only [Data.evaluate, operand_tape htape, Option.bind_eq_bind, Option.bind_some]

theorem quiet_label (name : String) (d : Data) (rest : List Item) :
    Quiet layout host program ⟨listingOf (.label name :: rest), d⟩ := by
  refine ⟨?_, rfl⟩
  rw [step_label]
  exact fun h => by cases h

/-- The function comes to its first statement with a cleared tape and the pointer on its first
cell.  On the way it accesses no cell. -/
theorem runs_prologue (accepted : layout.Accepted) (host : Host) (program : List (Statement α))
    (input : List Byte) :
    ∃ d, Stretch (Qbe.step (mainFunction layout program) host) (Quiet layout host program)
        ((mainFunction layout program).start input)
        (.next ⟨listingOf (statements layout firstTemp firstLabel program ++
          [.jump (.ret (some (const 0)))]), d⟩) ∧
      Cleared layout host d.memory ∧
      Represents layout host (.start accepted.size_pos input) d := by
  obtain ⟨d, halloc, htape, hmemory, rfl, houtput⟩ :=
    execute_alloc accepted host ⟨fun _ => none, fun _ => none, input, []⟩
  obtain ⟨d', hmemset, hcleared, htemps, hinput, houtput'⟩ := execute_memset accepted htape hmemory
  rw [← htemps] at htape
  refine ⟨d'.set "ptr" ⟨.long, base layout host⟩, ?_, hcleared, ?_⟩
  · -- One step for each item of the prologue.
    exact .cons (quiet_label _ _ _) (step_label _ _ _)
      (.cons (quiet_instr halloc rfl) (step_instr halloc)
        (.cons (quiet_instr hmemset (access_memset _ _)) (step_instr hmemset)
          (.cons (quiet_instr (execute_copy htape) rfl) (step_instr (execute_copy htape))
            (.last (quiet_label _ _ _) (step_label _ _ _)))))
  · rw [← hinput]
    refine Cleared.represents (d := d'.set "ptr" _) hcleared accepted ?_ (d'.temps_set_self _ _)
      (houtput'.trans houtput)
    rw [d'.temps_set_of_ne _ (by decide), htape]

/-! ## Whole programs -/

theorem main_eq (layout : Tape) (program : List (Statement α)) :
    Qbe.Module.main? ⟨[mainFunction layout program]⟩ = some (mainFunction layout program) := by
  simp [Qbe.Module.main?, mainFunction, emptyMain, Qbe.Function.empty]

theorem related_start (accepted : layout.Accepted) (hcounts : Statement.countsSafeAll program)
    {input : List Byte} {d : Data} (h : Represents layout host (.start accepted.size_pos input) d) :
    Related layout host program (Interpreter.start program accepted.size_pos input)
      ⟨listingOf (statements layout firstTemp firstLabel program ++
        [.jump (.ret (some (const 0)))]), d⟩ := by
  have hdone : Resumes layout (body layout program) ([] : List (Statement α)) _ := .done
  have hall := hdone.append program firstTemp firstLabel (List.suffix_append _ _)
  rw [List.append_nil] at hall
  exact .intro hall h hcounts

/-- The function comes to a state that stands for the start of the interpreter. -/
theorem exists_related_start (accepted : layout.Accepted)
    (hcounts : Statement.countsSafeAll program) (host : Host) (input : List Byte) :
    ∃ state, Stretch (Qbe.step (mainFunction layout program) host) (Quiet layout host program)
        ((mainFunction layout program).start input) (.next state) ∧
      Related layout host program (Interpreter.start program accepted.size_pos input) state := by
  obtain ⟨d, hprologue, _, hd⟩ := runs_prologue accepted host program input
  exact ⟨_, hprologue, related_start accepted hcounts hd⟩

/-- A module with the function of a program ends as the interpreter of the program does. -/
theorem ends_module_iff (accepted : layout.Accepted) (hcounts : Statement.countsSafeAll program)
    (host : Host) (input : List Byte) (ending : Ending) :
    Qbe.Module.Ends ⟨[mainFunction layout program]⟩ host input ending ↔
      Ends Interpreter.step (Interpreter.start program accepted.size_pos input :
        Interpreter.Config α layout.size layout.stride.width) ending := by
  -- The prologue is left out on one side, then the simulation joins the two.
  obtain ⟨state, hprologue, hrelated⟩ := exists_related_start accepted hcounts host input
  rw [(lowering_simulation accepted).ends_iff hrelated, ← hprologue.ends_iff]
  simp only [Qbe.Module.Ends, main_eq, Option.some.injEq, exists_eq_left']

/-- A lowered program ends with a status, an output and a rest of the input exactly if the
interpreter of its tree does, wherever the tape is put and whatever memory held before. -/
theorem lower_preserves_meaning {options : TapeOptions} {layout : Tape}
    (hresolve : options.resolve = .ok layout) {program : List (Statement α)}
    (hcounts : Statement.countsSafeAll program) :
    ∃ module, lower options program = .ok module ∧
      ∀ (host : Host) (input : List Byte) (ending : Ending),
        module.Ends host input ending ↔
          Ends Interpreter.step
            (Interpreter.start program (TapeOptions.resolve_accepted hresolve).size_pos input :
              Interpreter.Config α layout.size layout.stride.width) ending := by
  have accepted := TapeOptions.resolve_accepted hresolve
  exact ⟨_, lower_eq_ok hresolve program, ends_module_iff accepted hcounts⟩

/-- Two word cells.  The program echoes a byte and walks off the tape. -/
theorem lower_preserves_meaning_echo :
    TapeOptions.resolve ⟨some (.integer 2), some (.integer 8)⟩ = .ok ⟨.integer 2, .eight⟩ ∧
      Statement.countsSafeAll
        [.read (), .loop [.write (), .counted .moveRight (.integer 3) ()] ()] ∧
      ∃ module, lower ⟨some (.integer 2), some (.integer 8)⟩
          [.read (), .loop [.write (), .counted .moveRight (.integer 3) ()] ()] = .ok module ∧
        ∀ host, module.Ends host [65] (.returned 1 [65] []) := by
  refine ⟨by decide, by decide, ?_⟩
  obtain ⟨module, hlower, hends⟩ := lower_preserves_meaning
    (by decide : TapeOptions.resolve ⟨some (.integer 2), some (.integer 8)⟩ =
      .ok ⟨.integer 2, .eight⟩)
    (by decide : Statement.countsSafeAll
      [.read (), .loop [.write (), .counted .moveRight (.integer 3) ()] ()])
  exact ⟨module, hlower, fun host => (hends host _ _).2 ⟨_, ⟨3, rfl⟩, rfl⟩⟩

/-- In every state of a run that is about to load, store, read or write, the pointer is at a
whole cell and the bytes of the access are on the tape.  Such a state comes after one in which the
region that the tape is half of has been allocated and is zero.  No state faults. -/
theorem lower_stays_on_tape {options : TapeOptions} {layout : Tape}
    (hresolve : options.resolve = .ok layout) {program : List (Statement α)}
    (hcounts : Statement.countsSafeAll program) :
    ∃ module main, lower options program = .ok module ∧ module.main? = some main ∧
      ∀ (host : Host) (input : List Byte), ∃ cleared,
        Reachable (Qbe.step main host) (main.start input) cleared ∧
        Cleared layout host cleared.data.memory ∧
        ∀ s, Reachable (Qbe.step main host) (main.start input) s →
          Qbe.step main host s ≠ .done .fault ∧
          ∀ a n, s.access? = some (a, n) →
            Reachable (Qbe.step main host) cleared s ∧ OnTape layout host s.data a n := by
  have accepted := TapeOptions.resolve_accepted hresolve
  refine ⟨_, _, lower_eq_ok hresolve program, main_eq layout program, fun host input => ?_⟩
  obtain ⟨d, hprologue, hcleared, hd⟩ := runs_prologue accepted host program input
  refine ⟨_, hprologue.reachable, hcleared, ?_⟩
  rintro s ⟨n, hn⟩
  rcases hprologue.visits hn with ⟨hquiet, _⟩ | ⟨b, m, hb, _, hm⟩
  · -- The state is on the way to the first statement.
    refine ⟨hquiet.1, fun a n haccess => ?_⟩
    rw [hquiet.2] at haccess
    cases haccess
  · -- From there on every state is on a stretch of the simulation.
    cases hb
    have hsafe := (lowering_simulation accepted).holds (related_start accepted hcounts hd) ⟨m, hm⟩
    exact ⟨hsafe.1, fun a n haccess => ⟨⟨m, hm⟩, hsafe.2 a n haccess⟩⟩

/-- One word cell at address 0.  The program comes to a read of the lowest byte of the cell. -/
theorem lower_stays_on_tape_read :
    TapeOptions.resolve ⟨some (.integer 1), some (.integer 8)⟩ = .ok ⟨.integer 1, .eight⟩ ∧
      Statement.countsSafeAll [.counted .decrement (.integer 1) (), .read ()] ∧
      ∃ module main, lower ⟨some (.integer 1), some (.integer 8)⟩
          [.counted .decrement (.integer 1) (), .read ()] = .ok module ∧
        module.main? = some main ∧
        ∃ s : State, Reachable (Qbe.step main default) (main.start [65]) s ∧
          s.access? = some (0, 1) ∧ OnTape ⟨.integer 1, .eight⟩ default s.data 0 1 := by
  refine ⟨by decide, by decide, ?_⟩
  obtain ⟨module, main, hlower, hmain, hall⟩ := lower_stays_on_tape
    (by decide : TapeOptions.resolve ⟨some (.integer 1), some (.integer 8)⟩ =
      .ok ⟨.integer 1, .eight⟩)
    (by decide : Statement.countsSafeAll [.counted .decrement (.integer 1) (), .read ()])
  obtain ⟨_, _, _, hsafe⟩ := hall default [65]
  have hvisit : (after (Qbe.step main default) 8 (main.start [65])).bind State.access? =
      some (0, 1) := by
    cases hlower
    cases hmain
    rfl
  obtain ⟨s, hs, haccess⟩ := Option.bind_eq_some_iff.1 hvisit
  exact ⟨module, main, hlower, hmain, s, ⟨8, hs⟩, haccess, ((hsafe s ⟨8, hs⟩).2 _ _ haccess).2⟩

end TapeCompiler.Lowering
