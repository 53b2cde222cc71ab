import TapeCompiler.Proofs.EmittedCode
import TapeCompiler.Proofs.LoweringSoundness

/-! # What a cell holds behind a read

A read takes one byte from the input and puts it at the pointer.  A cell may be wider than that, and
its other bytes stay what they were: a load from the cell, as long as nothing else has been stored
there, gives the old value with its lowest byte replaced.

* `Emitted.memory`: an instruction behind the prologue writes to one cell at most.
* `read_step`, `read_after`: so a step, and a run, leave the bytes of every other cell alone.
* `read_taken`: what the read itself does to its cell.
* `read_replaces_low_byte`: what a later load finds.
-/

namespace TapeCompiler

namespace Qbe

variable {f : Function} {host : Host}

/-! ## Takes, stores and loads -/

namespace Data

/-- The address and the byte of a call of `read` that is about to take something. -/
def taken? (d : Data) : Instr → Option (Address × Byte)
  | .call target args =>
    match d.arguments args, d.input with
    | some [_, a, n], b :: _ => if target = "read" ∧ n.bits ≠ 0 then some (a.bits, b) else none
    | _, _ => none
  | _ => none

/-- The address that an instruction is about to store to or to read a byte to. -/
def stored? (d : Data) : Instr → Option Address
  | .store _ _ address => d.operand .long address
  | i => (d.taken? i).map Prod.fst

/-- The temporary and the address of a load. -/
def loaded? (d : Data) : Instr → Option (String × Address)
  | .assign (.temp name) _ (.load _ address) => (d.operand .long address).map (name, ·)
  | _ => none

end Data

namespace State

def taken? (s : State) : Option (Address × Byte) := s.control.instrs.head?.bind s.data.taken?

def stored? (s : State) : Option Address := s.control.instrs.head?.bind s.data.stored?

def loaded? (s : State) : Option (String × Address) := s.control.instrs.head?.bind s.data.loaded?

end State

/-- In `s` a byte is taken to an address, and in a later state `t` it is loaded from there.  Nothing
is stored at the address in between. -/
structure ReadBack (f : Function) (host : Host) (s t : State) (a : Address) (b : Byte)
    (name : String) : Prop where
  taken : s.taken? = some (a, b)
  loaded : t.loaded? = some (name, a)
  between : ∃ n, after (step f host) (n + 1) s = some t ∧
    ∀ k ≤ n, 0 < k → (after (step f host) k s).bind State.stored? ≠ some a

/-- The states of a read back, found by their places in a run. -/
theorem exists_readBack {start : State} {a : Address} {b : Byte} {name : String} (m n : Nat)
    (htaken : (after (step f host) m start).bind State.taken? = some (a, b))
    (hloaded : (after (step f host) (m + (n + 1)) start).bind State.loaded? = some (name, a))
    (hbetween : ∀ k ≤ n, 0 < k →
      (after (step f host) (m + k) start).bind State.stored? ≠ some a) :
    ∃ s t, after (step f host) m start = some s ∧
      after (step f host) (m + (n + 1)) start = some t ∧ ReadBack f host s t a b name := by
  obtain ⟨s, hs, hst⟩ := Option.bind_eq_some_iff.1 htaken
  obtain ⟨t, ht, htl⟩ := Option.bind_eq_some_iff.1 hloaded
  refine ⟨s, t, hs, ht, hst, htl, n, by rw [← after_add hs, ht], fun k hk hpos => ?_⟩
  rw [← after_add hs]
  exact hbetween k hk hpos

theorem Data.access_of_taken {d : Data} {i : Instr} {a : Address} {b : Byte}
    (h : d.taken? i = some (a, b)) : ∃ n, 0 < n ∧ d.access? i = some (a, n) := by
  cases i with
  | assign dest type operation => cases h
  | store op value address => cases h
  | call target args =>
    simp only [taken?] at h
    split at h
    · rename_i n _ _ hargs _
      split at h
      · rename_i hread
        cases h
        refine ⟨n.bits.toNat, ?_, by simp [access?, hargs, hread.1]⟩
        exact Nat.pos_of_ne_zero fun hzero => hread.2 (BitVec.eq_of_toNat_eq hzero)
      · cases h
    · cases h

theorem State.access_ne_none_of_taken {s : State} {a : Address} {b : Byte}
    (h : s.taken? = some (a, b)) : s.access? ≠ none := by
  obtain ⟨i, hi, htaken⟩ := Option.bind_eq_some_iff.1 h
  obtain ⟨n, -, haccess⟩ := Data.access_of_taken htaken
  simp [access?, hi, haccess]

end Qbe

namespace Lowering

open Qbe (Address Data Host Memory ReadBack State ofBytes)

variable {α : Type} {layout : Tape} {host : Host} {program : List (Statement α)}

/-! ## What an instruction does to memory -/

section Effects

variable {stride : Stride} {d d' : Data} {i : Qbe.Instr} {a : Address}

theorem memory_of_assign {dest : Qbe.Value} {type : Qbe.BaseType} {operation : Qbe.Operation}
    (hop : ∀ n, operation ≠ .alloc8 n)
    (hexec : d.execute host (.assign dest type operation) = some d') : d'.memory = d.memory := by
  cases dest with
  | const c => cases hexec
  | temp name =>
    simp only [Data.execute, Option.bind_eq_bind, Option.bind_eq_some_iff, Option.some.injEq,
      Prod.exists] at hexec
    obtain ⟨v, m, hvalue, rfl⟩ := hexec
    cases operation with
    | alloc8 n => exact absurd rfl (hop n)
    | _ =>
      simp [Data.evaluate, Option.bind_eq_some_iff] at hvalue
      grind [Data.set]

theorem exists_operand_ptr {target : String} {descriptor : Nat}
    (hexec : d.execute host
      (.call target [⟨.word, const descriptor⟩, ⟨.long, ptr⟩, ⟨.long, const 1⟩]) = some d') :
    ∃ a, d.operand .long ptr = some a := by
  cases hptr : d.operand .long ptr with
  | some a => exact ⟨a, rfl⟩
  | none => simp [Data.execute, Data.arguments, hptr] at hexec

theorem memory_of_read (hptr : d.operand .long ptr = some a)
    (hexec : d.execute host (.call "read" [⟨.word, const 0⟩, ⟨.long, ptr⟩, ⟨.long, const 1⟩]) =
      some d') : d'.memory = d.memory.overlay a (d.input.take 1) := by
  simp only [Data.execute, arguments_at hptr, Option.bind_eq_bind, Option.bind_some,
    Data.call] at hexec
  rw [if_pos (by decide), Option.bind_eq_some_iff] at hexec
  obtain ⟨m, hm, hd⟩ := hexec
  cases hd
  exact Memory.eq_overlay_of_write hm

theorem memory_of_write (hptr : d.operand .long ptr = some a)
    (hexec : d.execute host (.call "write" [⟨.word, const 1⟩, ⟨.long, ptr⟩, ⟨.long, const 1⟩]) =
      some d') : d'.memory = d.memory := by
  simp only [Data.execute, arguments_at hptr, Option.bind_eq_bind, Option.bind_some,
    Data.call] at hexec
  rw [if_neg (by decide), if_pos (by decide), Option.bind_eq_some_iff] at hexec
  obtain ⟨bytes, -, hd⟩ := hexec
  cases hd
  rfl

/-- An emitted instruction leaves memory as it is, or writes to the cell that it is about to store
to. -/
theorem Emitted.memory (h : Emitted stride i) (hexec : d.execute host i = some d') :
    d'.memory = d.memory ∨ ∃ a n bytes, d.stored? i = some a ∧ d.access? i = some (a, n) ∧ 0 < n ∧
      bytes.length ≤ cellBytes stride ∧ d'.memory = d.memory.overlay a bytes := by
  cases h with
  | load t => exact .inl (memory_of_assign (fun _ => by simp) hexec)
  | compute harith =>
    refine .inl (memory_of_assign ?_ hexec)
    rintro n rfl
    cases harith
  | store v =>
    right
    simp only [Data.execute, Option.bind_eq_bind, Option.bind_eq_some_iff,
      Option.some.injEq] at hexec
    obtain ⟨x, -, a, ha, m, hm, rfl⟩ := hexec
    obtain ⟨n, hn⟩ := cellBytes_eq_succ stride
    refine ⟨a, cellBytes stride, _, ha, ?_, by omega, ?_, Memory.eq_overlay_of_write hm⟩
    · simp [Data.access?, ha, storeOp_bytes]
    · simp [storeOp_bytes]
  | write =>
    obtain ⟨a, hptr⟩ := exists_operand_ptr hexec
    exact .inl (memory_of_write hptr hexec)
  | read =>
    obtain ⟨a, hptr⟩ := exists_operand_ptr hexec
    have hmemory := memory_of_read hptr hexec
    cases hinput : d.input with
    | nil =>
      -- At the end of the input the call writes no byte, so nothing is stored.
      exact .inl (by simp [hmemory, hinput])
    | cons b rest =>
      obtain ⟨n, hn⟩ := cellBytes_eq_succ stride
      refine .inr ⟨a, 1, [b], ?_, ?_, by decide, by simp [hn], by simp [hmemory, hinput]⟩
      · simp [Data.stored?, Data.taken?, arguments_at hptr, hinput]
      · simp [Data.access?, arguments_at hptr]

theorem Emitted.taken {b : Byte} (h : Emitted stride i) (htaken : d.taken? i = some (a, b))
    (hexec : d.execute host i = some d') : d'.memory = d.memory.overlay a [b] := by
  cases h with
  | load t => cases htaken
  | compute harith => cases htaken
  | store v => cases htaken
  | write =>
    -- A call of `write` has the same arguments; only its name tells it from a read.
    obtain ⟨p, hptr⟩ := exists_operand_ptr hexec
    simp only [Data.taken?, arguments_at hptr] at htaken
    split at htaken <;> simp at htaken
  | read =>
    obtain ⟨p, hptr⟩ := exists_operand_ptr hexec
    have hmemory := memory_of_read hptr hexec
    cases hinput : d.input with
    | nil => simp [Data.taken?, arguments_at hptr, hinput] at htaken
    | cons c rest =>
      have hsame : p = a ∧ c = b := by
        simpa [Data.taken?, arguments_at hptr, hinput] using htaken
      simp [hmemory, hinput, hsame]

theorem Emitted.loaded (host : Host) {name : String} {bytes : List Byte} (h : Emitted stride i)
    (hloaded : d.loaded? i = some (name, a))
    (hread : d.memory.read a (cellBytes stride) = some bytes) :
    ∃ d', d.execute host i = some d' ∧
      d'.temps name = some ⟨.word, BitVec.ofNat 64 (ofBytes bytes)⟩ := by
  cases h with
  | store v => cases hloaded
  | read => cases hloaded
  | write => cases hloaded
  | @compute dest type operation harith =>
    cases dest with
    | const c => cases hloaded
    | temp t =>
      cases operation with
      | load op v => cases harith
      | _ => cases hloaded
  | load t =>
    simp only [Data.loaded?, temp, Option.map_eq_some_iff, Prod.mk.injEq] at hloaded
    obtain ⟨p, hptr, rfl, rfl⟩ := hloaded
    refine ⟨_, Data.execute_assign (v := BitVec.ofNat 64 (ofBytes bytes)) (m := d.memory) ?_,
      Data.temps_set_self _ _ _⟩
    have hread' : d.memory.read p (loadOp stride).bytes = some bytes := hread
    simp only [Data.evaluate, hptr, hread', Option.bind_eq_bind, Option.bind_some,
      Data.extend_word]

end Effects

/-! ## Cells that nothing is stored to -/

theorem OnTape.exists_cell {d : Data} {a : Address} {n : Nat} (h : OnTape layout host d a n)
    (hn : 0 < n) : ∃ i < layout.size, a = cellAddress layout host i := by
  obtain ⟨i, hi⟩ := h.aligned
  have hwithin := h.within
  rw [hi] at hwithin
  refine ⟨i, ?_, ?_⟩
  · -- The first byte of the access is below the limit, so its cell is too.
    apply Nat.lt_of_mul_lt_mul_left (a := layout.stride.bytes)
    rw [Nat.mul_comm layout.stride.bytes layout.size]
    omega
  · rw [cellAddress, Nat.mul_comm, ← hi, BitVec.ofNat_toNat, BitVec.setWidth_eq, BitVec.add_comm,
      BitVec.sub_add_cancel]

theorem Mapped.exists_read {m : Memory} (h : Mapped layout host m) {i : Nat}
    (hi : i < layout.size) :
    ∃ bytes, m.read (cellAddress layout host i) (cellBytes layout.stride) = some bytes := by
  have hwithin := cell_within layout hi
  apply Memory.exists_read
  intro k hk
  rw [cellAddress, Memory.offset_add]
  exact h _ (by omega)

section Runs

variable {s s' t : State} {i : Nat} {bytes : List Byte}

theorem read_step (accepted : layout.Accepted) (hi : i < layout.size)
    (hsafe : Safe layout host program s) (h : BehindPrologue layout.stride s.control)
    (hstep : Qbe.step (mainFunction layout program) host s = .next s')
    (hstored : s.stored? ≠ some (cellAddress layout host i))
    (hread : s.data.memory.read (cellAddress layout host i) (cellBytes layout.stride) =
      some bytes) :
    s'.data.memory.read (cellAddress layout host i) (cellBytes layout.stride) = some bytes := by
  obtain ⟨instr, rest, hcontrol, -, hexec⟩ | ⟨-, hdata, -⟩ := Qbe.step_cases hstep
  · have hhead : s.control.instrs.head? = some instr := by simp [hcontrol]
    have hemitted : Emitted layout.stride instr := h.instrs instr (by simp [hcontrol])
    obtain hsame | ⟨a, n, written, ha, haccess, hn, hlen, hmemory⟩ := hemitted.memory hexec
    · rwa [hsame]
    · -- The store goes to a cell of the tape, and to another one.
      have hstate : s.access? = some (a, n) := by simp [State.access?, hhead, haccess]
      obtain ⟨j, hj, rfl⟩ := (hsafe.2 a n hstate).exists_cell hn
      have hne : i ≠ j := by
        rintro rfl
        exact hstored (by simp [State.stored?, hhead, ha])
      have hregion := accepted.region_lt
      have hi' := cell_within layout hi
      have hj' := cell_within layout hj
      have hdisjoint := cell_disjoint layout.stride hne
      rw [hmemory]
      exact Memory.read_overlay_of_disjoint (by omega) (by omega) (by omega) (by omega) hread
  · rwa [hdata]

/-- Along a run a cell keeps its bytes for as long as nothing is stored to it. -/
theorem read_after (accepted : layout.Accepted) (hi : i < layout.size)
    (hsafe : ∀ u, Reachable (Qbe.step (mainFunction layout program) host) s u →
      Safe layout host program u)
    (h : BehindPrologue layout.stride s.control) {n : Nat}
    (ht : after (Qbe.step (mainFunction layout program) host) n s = some t)
    (hstored : ∀ k < n, (after (Qbe.step (mainFunction layout program) host) k s).bind
      State.stored? ≠ some (cellAddress layout host i))
    (hread : s.data.memory.read (cellAddress layout host i) (cellBytes layout.stride) =
      some bytes) :
    t.data.memory.read (cellAddress layout host i) (cellBytes layout.stride) = some bytes := by
  -- On the length of the run from `s`.  That its states are safe and behind the prologue goes along.
  induction n generalizing s with
  | zero =>
    cases ht
    exact hread
  | succ n ih =>
    cases hs : Qbe.step (mainFunction layout program) host s with
    | done e => rw [after_succ_done hs] at ht; cases ht
    | next s' =>
      rw [after_succ hs] at ht
      have hnow : s.stored? ≠ some (cellAddress layout host i) := hstored 0 (by omega)
      refine ih (fun u hu => hsafe u (hu.head hs)) (h.step hs) ht (fun k hk => ?_)
        (read_step accepted hi (hsafe s (.refl _ s)) h hs hnow hread)
      rw [← after_succ hs]
      exact hstored (k + 1) (by omega)

/-- A read replaces the lowest byte of its cell and keeps the bytes above it. -/
theorem read_taken (accepted : layout.Accepted) {a : Address} {b : Byte}
    (hsafe : Safe layout host program s) (h : BehindPrologue layout.stride s.control)
    (hstep : Qbe.step (mainFunction layout program) host s = .next s')
    (htaken : s.taken? = some (a, b)) :
    ∃ i < layout.size, a = cellAddress layout host i ∧ ∃ old rest,
      s.data.memory.read a (cellBytes layout.stride) = some (old :: rest) ∧
      s'.data.memory.read a (cellBytes layout.stride) = some (b :: rest) := by
  obtain ⟨instr, behind, hcontrol, -, hexec⟩ | ⟨hnone, -⟩ := Qbe.step_cases hstep
  · have hhead : s.control.instrs.head? = some instr := by simp [hcontrol]
    have hemitted : Emitted layout.stride instr := h.instrs instr (by simp [hcontrol])
    simp only [State.taken?, hhead, Option.bind_some] at htaken
    have hmemory := hemitted.taken htaken hexec
    obtain ⟨k, hk, haccess⟩ := Data.access_of_taken htaken
    have hon := hsafe.2 a k (by simp [State.access?, hhead, haccess])
    obtain ⟨i, hi, rfl⟩ := hon.exists_cell hk
    refine ⟨i, hi, rfl, ?_⟩
    obtain ⟨bytes, hbytes⟩ := hon.mapped.exists_read hi
    obtain ⟨n, hn⟩ := cellBytes_eq_succ layout.stride
    have hregion := accepted.region_lt
    have hwithin := cell_within layout hi
    rw [hn] at hbytes hwithin ⊢
    cases bytes with
    | nil => simp [Memory.read_eq_some_iff] at hbytes
    | cons old rest =>
      refine ⟨old, rest, hbytes, ?_⟩
      rw [hmemory]
      exact Memory.read_overlay_first (by omega) hbytes
  · simp [State.taken?, hnone] at htaken

theorem step_loaded {a : Address} {name : String} (h : BehindPrologue layout.stride t.control)
    (hloaded : t.loaded? = some (name, a))
    (hread : t.data.memory.read a (cellBytes layout.stride) = some bytes) :
    ∃ t', Qbe.step (mainFunction layout program) host t = .next t' ∧
      t'.data.temps name = some ⟨.word, BitVec.ofNat 64 (ofBytes bytes)⟩ := by
  obtain ⟨⟨instrs, jump, blocks⟩, d⟩ := t
  cases instrs with
  | nil => cases hloaded
  | cons instr rest =>
    obtain ⟨d', hexec, htemp⟩ := (h.instrs instr (by simp)).loaded host hloaded hread
    exact ⟨⟨⟨rest, jump, blocks⟩, d'⟩, by simp only [Qbe.step, hexec], htemp⟩

end Runs

/-! ## Whole programs -/

/-- A state that is about to access memory is behind the prologue, and so is every state that the
run comes to from there. -/
theorem behindPrologue_of_access (accepted : layout.Accepted)
    (hcounts : Statement.countsSafeAll program) {input : List Byte} {s : State}
    (hs : Reachable (Qbe.step (mainFunction layout program) host)
      ((mainFunction layout program).start input) s) (haccess : s.access? ≠ none) :
    BehindPrologue layout.stride s.control ∧
      ∀ u, Reachable (Qbe.step (mainFunction layout program) host) s u →
        Safe layout host program u := by
  obtain ⟨d, hprologue, -, hd⟩ := runs_prologue accepted host program input
  have hrelated := related_start accepted hcounts hd
  obtain ⟨n, hn⟩ := hs
  obtain ⟨hquiet, -⟩ | ⟨first, m, hfirst, -, hm⟩ := hprologue.visits hn
  · -- On the way to the first statement nothing of the tape is accessed.
    exact absurd hquiet.2 haccess
  · cases hfirst
    refine ⟨?_, fun u hu => (lowering_simulation accepted).holds hrelated (.trans ⟨m, hm⟩ hu)⟩
    exact BehindPrologue.of_reachable (behindPrologue_start layout program) ⟨m, hm⟩

/-- The value of the cell at an address. -/
def cellValue? (stride : Stride) (s : State) (a : Address) : Option Nat :=
  (s.data.memory.read a (cellBytes stride)).map ofBytes

theorem toNat_ofBytes {stride : Stride} {bytes : List Byte} (h : bytes.length = cellBytes stride) :
    (BitVec.ofNat 64 (ofBytes bytes)).toNat = ofBytes bytes := by
  have hlt := Qbe.ofBytes_lt bytes
  rw [h, ← two_pow_width] at hlt
  have hwidth : 2 ^ stride.width ≤ 2 ^ 32 := Nat.pow_le_pow_right (by decide) (width_le stride)
  rw [BitVec.toNat_ofNat]
  exact Nat.mod_eq_of_lt (by omega)

/-- A load from a cell that a byte has been read to, before anything else is stored there, gives the
value that the cell had before the read with its lowest byte replaced.  So it gives the byte itself
if a cell is a byte, and otherwise exactly if the cell held no more than a byte. -/
theorem read_replaces_low_byte {options : TapeOptions} {layout : Tape}
    (hresolve : options.resolve = .ok layout) {program : List (Statement α)}
    (hcounts : Statement.countsSafeAll program) :
    ∃ module main, lower options program = .ok module ∧ module.main? = some main ∧
      ∀ (host : Host) (input : List Byte) (s t : State) (a : Address) (b : Byte) (name : String),
        Reachable (Qbe.step main host) (main.start input) s → ReadBack main host s t a b name →
        ∃ v t' x, cellValue? layout.stride s a = some v ∧ Qbe.step main host t = .next t' ∧
          t'.data.temps name = some ⟨.word, x⟩ ∧ x.toNat = v / 256 * 256 + b.toNat ∧
          (layout.stride = .one → x.toNat = b.toNat) ∧ (x.toNat = b.toNat ↔ v < 256) := by
  have accepted := TapeOptions.resolve_accepted hresolve
  refine ⟨_, _, lower_eq_ok hresolve program, main_eq layout program, ?_⟩
  intro host input s t a b name hs hback
  obtain ⟨n, hn, hstored⟩ := hback.between
  cases hstep : Qbe.step (mainFunction layout program) host s with
  | done e => rw [after_succ_done hstep] at hn; cases hn
  | next s' =>
    rw [after_succ hstep] at hn
    obtain ⟨hbehind, hsafe⟩ := behindPrologue_of_access accepted hcounts hs
      (State.access_ne_none_of_taken hback.taken)
    obtain ⟨i, hi, rfl, old, rest, hold, hnew⟩ :=
      read_taken accepted (hsafe s (.refl _ s)) hbehind hstep hback.taken
    have hbehind' := hbehind.step hstep
    have hread := read_after accepted hi (fun u hu => hsafe u (hu.head hstep)) hbehind' hn
      (fun k hk => by rw [← after_succ hstep]; exact hstored (k + 1) (by omega) (by omega)) hnew
    obtain ⟨t', ht', htemp⟩ :=
      step_loaded (hbehind'.of_reachable ⟨n, hn⟩) hback.loaded hread
    have hlen := (Memory.read_eq_some_iff.1 hnew).1
    have hvalue := toNat_ofBytes hlen
    -- Before and behind the read the cell differs in its lowest digit to the base 256 only.
    have hb := b.isLt
    have hlow := old.isLt
    refine ⟨_, t', _, by rw [cellValue?, hold]; rfl, ht', htemp, ?_, fun hone => ?_, ?_⟩
    · rw [hvalue, ofBytes, ofBytes]
      omega
    · -- A cell of one byte has no bytes above it.
      have hrest : rest = [] := by simpa [hone, cellBytes, loadOp, Qbe.LoadOp.bytes] using hlen
      rw [hvalue, hrest]
      simp [ofBytes]
    · rw [hvalue, ofBytes, ofBytes]
      omega

/-- Reads a byte over a 3 and changes the other cell before a loop tests the first. -/
def neighbour : List (Statement Unit) :=
  [.counted .increment (.integer 3) (), .read (), .counted .moveRight (.integer 1) (),
    .counted .increment (.integer 1) (), .counted .moveLeft (.integer 1) (), .loop [] ()]

/-- On two word cells at address 0 the loop finds the byte 65 that was read. -/
theorem read_replaces_low_byte_neighbour :
    TapeOptions.resolve ⟨some (.integer 2), some (.integer 8)⟩ = .ok ⟨.integer 2, .eight⟩ ∧
      Statement.countsSafeAll neighbour ∧
      ∃ module main, lower ⟨some (.integer 2), some (.integer 8)⟩ neighbour = .ok module ∧
        module.main? = some main ∧
        ∃ s t t' : State, Reachable (Qbe.step main default) (main.start [65]) s ∧
          cellValue? .eight s 0 = some 3 ∧ ReadBack main default s t 0 65 "v8" ∧
          Qbe.step main default t = .next t' ∧
          ∃ x, t'.data.temps "v8" = some ⟨.word, x⟩ ∧ x.toNat = 65 := by
  refine ⟨by decide, by decide, ?_⟩
  obtain ⟨module, main, hlower, hmain, hall⟩ := read_replaces_low_byte
    (by decide : TapeOptions.resolve ⟨some (.integer 2), some (.integer 8)⟩ =
      .ok ⟨.integer 2, .eight⟩) (by decide : Statement.countsSafeAll neighbour)
  have hvisit : (∃ s t, after (Qbe.step main default) 8 (main.start [65]) = some s ∧
      after (Qbe.step main default) 20 (main.start [65]) = some t ∧
      ReadBack main default s t 0 65 "v8") ∧
      (after (Qbe.step main default) 8 (main.start [65])).bind (cellValue? .eight · 0) =
        some 3 := by
    cases hlower
    cases hmain
    exact ⟨Qbe.exists_readBack 8 11 rfl rfl (by decide), rfl⟩
  obtain ⟨⟨s, t, hs, -, hback⟩, hthree⟩ := hvisit
  rw [hs, Option.bind_some] at hthree
  obtain ⟨v, t', x, hv, ht', htemp, hx, -⟩ := hall default [65] s t 0 65 "v8" ⟨8, hs⟩ hback
  obtain rfl : 3 = v := Option.some.inj (hthree.symm.trans hv)
  exact ⟨module, main, hlower, hmain, s, t, t', ⟨8, hs⟩, hthree, hback, ht', x, htemp, hx⟩

/-- Reads a byte over a 256 and tests the cell. -/
def wideCell : List (Statement Unit) :=
  [.counted .increment (.integer 256) (), .read (),
    .loop [.counted .moveRight (.integer 1) ()] ()]

/-- On one word cell a loop behind a read of the byte 0 finds 256, and is entered. -/
theorem read_keeps_high_bytes :
    TapeOptions.resolve ⟨some (.integer 1), some (.integer 8)⟩ = .ok ⟨.integer 1, .eight⟩ ∧
      Statement.countsSafeAll wideCell ∧
      ∃ module main, lower ⟨some (.integer 1), some (.integer 8)⟩ wideCell = .ok module ∧
        module.main? = some main ∧
        ∃ s t t' : State, Reachable (Qbe.step main default) (main.start [0]) s ∧
          ReadBack main default s t 0 0 "v2" ∧ Qbe.step main default t = .next t' ∧
          t'.data.temps "v2" = some ⟨.word, 256⟩ := by
  have hresolve : TapeOptions.resolve ⟨some (.integer 1), some (.integer 8)⟩ =
      .ok ⟨.integer 1, .eight⟩ := by decide
  refine ⟨hresolve, by decide, _, _, lower_eq_ok hresolve wideCell, main_eq _ wideCell, ?_⟩
  generalize hmain : mainFunction ⟨.integer 1, .eight⟩ wideCell = main
  have hvisit : (∃ s t, after (Qbe.step main default) 8 (main.start [0]) = some s ∧
      after (Qbe.step main default) 9 (main.start [0]) = some t ∧
      ReadBack main default s t 0 0 "v2") ∧
      (after (Qbe.step main default) 10 (main.start [0])).bind (·.data.temps "v2") =
        some ⟨.word, 256⟩ := by
    cases hmain
    exact ⟨Qbe.exists_readBack 8 0 rfl rfl (by decide), rfl⟩
  obtain ⟨⟨s, t, hs, ht, hback⟩, hloaded⟩ := hvisit
  obtain ⟨t', ht', htemp⟩ := Option.bind_eq_some_iff.1 hloaded
  exact ⟨s, t, t', ⟨8, hs⟩, hback, step_of_after_succ ht ht', htemp⟩

end Lowering

end TapeCompiler
