import TapeCompiler.Proofs.DecimalText
import TapeCompiler.Proofs.Temporaries

/-! # Names and numbers

A module is made of names and numbers: everything else in its text is fixed.  What can be said about
printing depends on them alone.

* `Qbe.IsName`: the names that the intermediate language has.
* `Qbe.Module.WellFormed`: all names of a module are names, and its numbers are of a given kind.
* `Number.Legible`, `Number.text_injective`: the integers that can be read off their texts.
* `Lowering.wellFormed_module`, `Lowering.legible_mainFunction`: a lowered program is well-formed.
-/

namespace TapeCompiler

namespace Qbe

/-! ## Names -/

/-- A letter, a digit, an underscore or a dot. -/
def isNameChar (c : Char) : Bool := c.isAlphanum || c == '_' || c == '.'

def IsName (name : String) : Prop := name ≠ "" ∧ ∀ c ∈ name.toList, isNameChar c

instance (name : String) : Decidable (IsName name) :=
  decidable_of_iff (name ≠ "" ∧ name.toList.all isNameChar) (by simp [IsName])

theorem isName_numbered {stem : String} (h : IsName stem) (n : Nat) :
    IsName (stem ++ Number.natText n) := by
  constructor
  · intro hempty
    exact h.1 (String.append_eq_empty_iff.1 hempty).1
  · intro c hc
    rw [String.toList_append, List.mem_append] at hc
    obtain hc | hc := hc
    · exact h.2 c hc
    · rw [Number.natText, String.toList_ofList] at hc
      have hdigit := Nat.isDigit_of_mem_toDigits (by decide) (by decide) hc
      simp [isNameChar, Char.isAlphanum, hdigit]

/-! ## Well-formed modules -/

section WellFormed

variable (P : Number → Prop)

def Value.WellFormed : Value → Prop
  | .temp name => IsName name
  | .const n => P n

def Operation.WellFormed : Operation → Prop
  | .copy v => v.WellFormed P
  | .add v w => v.WellFormed P ∧ w.WellFormed P
  | .sub v w => v.WellFormed P ∧ w.WellFormed P
  | .load _ address => address.WellFormed P
  | .alloc8 bytes => P bytes
  | .above _ v w => v.WellFormed P ∧ w.WellFormed P

def Instr.WellFormed : Instr → Prop
  | .assign dest _ operation => dest.WellFormed P ∧ operation.WellFormed P
  | .store _ value address => value.WellFormed P ∧ address.WellFormed P
  | .call target args => IsName target ∧ ∀ a ∈ args, a.value.WellFormed P

def Jump.WellFormed : Jump → Prop
  | .jnz cond ifNonZero ifZero => cond.WellFormed P ∧ IsName ifNonZero ∧ IsName ifZero
  | .ret none => True
  | .ret (some value) => value.WellFormed P

def Item.WellFormed : Item → Prop
  | .label name => IsName name
  | .instr i => i.WellFormed P
  | .jump j => j.WellFormed P

/-- The name of a function and all names in its blocks are names, and all numbers are in `P`. -/
structure Function.WellFormed (f : Function) : Prop where
  name : IsName f.name
  items : ∀ item ∈ f.items, item.WellFormed P

def Module.WellFormed (m : Module) : Prop := ∀ f ∈ m.functions, f.WellFormed P

section Decidable

variable [DecidablePred P]

instance : DecidablePred (Value.WellFormed P)
  | .temp name => inferInstanceAs (Decidable (IsName name))
  | .const n => inferInstanceAs (Decidable (P n))

instance : DecidablePred (Operation.WellFormed P)
  | .copy v => inferInstanceAs (Decidable (v.WellFormed P))
  | .add v w => inferInstanceAs (Decidable (v.WellFormed P ∧ w.WellFormed P))
  | .sub v w => inferInstanceAs (Decidable (v.WellFormed P ∧ w.WellFormed P))
  | .load _ address => inferInstanceAs (Decidable (address.WellFormed P))
  | .alloc8 bytes => inferInstanceAs (Decidable (P bytes))
  | .above _ v w => inferInstanceAs (Decidable (v.WellFormed P ∧ w.WellFormed P))

instance : DecidablePred (Instr.WellFormed P)
  | .assign dest _ operation =>
    inferInstanceAs (Decidable (dest.WellFormed P ∧ operation.WellFormed P))
  | .store _ value address =>
    inferInstanceAs (Decidable (value.WellFormed P ∧ address.WellFormed P))
  | .call target args =>
    inferInstanceAs (Decidable (IsName target ∧ ∀ a ∈ args, a.value.WellFormed P))

instance : DecidablePred (Jump.WellFormed P)
  | .jnz cond ifNonZero ifZero =>
    inferInstanceAs (Decidable (cond.WellFormed P ∧ IsName ifNonZero ∧ IsName ifZero))
  | .ret none => inferInstanceAs (Decidable True)
  | .ret (some value) => inferInstanceAs (Decidable (value.WellFormed P))

instance : DecidablePred (Item.WellFormed P)
  | .label name => inferInstanceAs (Decidable (IsName name))
  | .instr i => inferInstanceAs (Decidable (i.WellFormed P))
  | .jump j => inferInstanceAs (Decidable (j.WellFormed P))

instance : DecidablePred (Function.WellFormed P) := fun f =>
  decidable_of_iff (IsName f.name ∧ ∀ item ∈ f.items, item.WellFormed P)
    ⟨fun h => ⟨h.1, h.2⟩, fun h => ⟨h.name, h.items⟩⟩

instance : DecidablePred (Module.WellFormed P) := fun m =>
  inferInstanceAs (Decidable (∀ f ∈ m.functions, f.WellFormed P))

end Decidable

end WellFormed

end Qbe

/-! ## Numbers that can be read off their texts -/

namespace Number

/-- An integer that no rounding changes and that is short enough to be written without an exponent. -/
def Legible : Number → Prop
  | .integer i => nearest i.natAbs 1 = i.natAbs ∧ i.natAbs < 10 ^ 18
  | _ => False

theorem legible_mul_two_pow {n : Nat} (hn : n < safeLimit) {k : Nat} (hk : k ≤ 4) :
    (ofNat (n * 2 ^ k)).Legible := by
  have hpow : 2 ^ k ≤ 2 ^ 4 := Nat.pow_le_pow_right (by decide) hk
  refine ⟨nearest_mul_two_pow hn k, ?_⟩
  calc n * 2 ^ k ≤ n * 2 ^ 4 := Nat.mul_le_mul_left n hpow
    _ < safeLimit * 2 ^ 4 := Nat.mul_lt_mul_of_pos_right hn (by decide)
    _ < 10 ^ 18 := by decide

theorem legible_of_lt {n : Nat} (hn : n < safeLimit) : (ofNat n).Legible := by
  simpa using legible_mul_two_pow hn (Nat.zero_le 4)

theorem legible_of_safe {n : Number} (h : n.isSafeInteger) : n.Legible := by
  cases n with
  | integer i => exact legible_of_lt (of_decide_eq_true h)
  | fraction i k => cases h
  | infinity negative => cases h

/-- The text of a legible integer denotes one that rounds to it. -/
theorem exists_text_eq {i : Int} (h : (integer i).Legible) :
    ∃ m, nearest m 1 = i.natAbs ∧
      (integer i).text = (if i < 0 then "-" else "") ++ natText m := by
  obtain ⟨m, htext, hwritten⟩ := text_eq_natText h.1 h.2
  refine ⟨m, hwritten.rounds, ?_⟩
  rw [← htext]
  by_cases hneg : i < 0
  · have hpos : ¬(i.natAbs : Int) < 0 := by omega
    simp only [text, ofNat, intText, ratioText, Int.natAbs_natCast, hneg, hpos, if_true, if_false,
      decide_true, decide_false, Bool.false_eq_true]
    split <;> rfl
  · obtain ⟨n, rfl⟩ := Int.eq_ofNat_of_zero_le (Int.not_lt.1 hneg)
    simp [ofNat, hneg]

theorem natText_ne_minus (m : Nat) (word : String) : natText m ≠ "-" ++ word := by
  intro h
  have hmem : '-' ∈ Nat.toDigits 10 m := by
    rw [← String.toList_ofList (l := Nat.toDigits 10 m), ← natText, h, String.toList_append]
    exact List.mem_cons_self
  have hdigit := Nat.isDigit_of_mem_toDigits (by decide) (by decide) hmem
  cases hdigit

theorem text_injective {a b : Number} (ha : a.Legible) (hb : b.Legible) (h : a.text = b.text) :
    a = b := by
  cases a with
  | integer i =>
    cases b with
    | integer j =>
      obtain ⟨m, hm, htext⟩ := exists_text_eq ha
      obtain ⟨n, hn, htext'⟩ := exists_text_eq hb
      rw [htext, htext'] at h
      -- The signs agree, and then one numeral rounds to both magnitudes.
      by_cases hi : i < 0 <;> by_cases hj : j < 0 <;>
        simp only [hi, hj, if_true, if_false, String.empty_append] at h
      · obtain rfl := natText_injective ((String.append_right_inj "-").1 h)
        rw [integer.injEq]
        omega
      · exact absurd h.symm (natText_ne_minus n _)
      · exact absurd h (natText_ne_minus m _)
      · obtain rfl := natText_injective h
        rw [integer.injEq]
        omega
    | fraction j k => exact hb.elim
    | infinity negative => exact hb.elim
  | fraction i k => exact ha.elim
  | infinity negative => exact ha.elim

end Number

/-! ## Lowered programs -/

namespace Lowering

open Qbe (IsName Item isName_numbered)
open Statement (partsAll)

variable {α : Type} {P : Number → Prop}

@[simp] theorem wellFormed_temp (n : Nat) : (temp n).WellFormed P := isName_numbered (by decide) n

@[simp] theorem wellFormed_ptr : ptr.WellFormed P := (by decide : IsName "ptr")

@[simp] theorem wellFormed_tape : tape.WellFormed P := (by decide : IsName "tape")

@[simp] theorem wellFormed_number (n : Number) : (Qbe.Value.const n).WellFormed P ↔ P n := Iff.rfl

theorem isName_label {stem : String} (h : stem ∈ stems) (n : Nat) : IsName (label stem n) := by
  refine isName_numbered ?_ n
  simp only [stems, List.mem_cons, List.not_mem_nil, or_false] at h
  obtain rfl | rfl | rfl | rfl := h <;> decide

/-- The numbers that stand in every program for a tape. -/
structure Admits (P : Number → Prop) (layout : Tape) : Prop where
  zero : P (.ofNat 0)
  one : P (.ofNat 1)
  addressable : P layout.addressable
  allocated : P layout.allocated

variable {layout : Tape}

theorem wellFormed_loadCell (stride : Stride) (t : Nat) : (loadCell stride t).WellFormed P :=
  ⟨wellFormed_temp (P := P) t, wellFormed_ptr (P := P)⟩

theorem wellFormed_test (stride : Stride) (t l : Nat) :
    ∀ item ∈ test stride t l, item.WellFormed P := by
  have hloop := isName_label (by decide : "loop" ∈ stems) l
  have hend := isName_label (by decide : "end" ∈ stems) l
  have hjump : (Item.jump (.jnz (temp t) (label "loop" l) (label "end" l))).WellFormed P :=
    ⟨wellFormed_temp (P := P) t, hloop, hend⟩
  exact List.forall_mem_cons.2 ⟨wellFormed_loadCell stride t, List.forall_mem_singleton.2 hjump⟩

theorem wellFormed_change {operation : Qbe.Value → Qbe.Value → Qbe.Operation}
    (hoperation : ∀ v w, (operation v w).WellFormed P ↔ v.WellFormed P ∧ w.WellFormed P)
    {count : Number} (hcount : P count) (t : Nat) :
    ∀ item ∈ change operation layout count t, item.WellFormed P := by
  refine List.forall_mem_cons.2 ⟨wellFormed_loadCell layout.stride t, ?_⟩
  simp [Item.WellFormed, Qbe.Instr.WellFormed, hoperation, hcount]

theorem wellFormed_guard (h : Admits P layout) (t l : Nat) :
    ∀ item ∈ guard layout.addressable t l, item.WellFormed P := by
  have hcont := isName_label (by decide : "cont" ∈ stems) l
  have hhalt := isName_label (by decide : "halt" ∈ stems) (l + 1)
  simp [guard, Item.WellFormed, Qbe.Instr.WellFormed, Qbe.Jump.WellFormed, Qbe.Operation.WellFormed,
    const, hcont, hhalt, h.one, h.addressable]

theorem wellFormed_move (h : Admits P layout)
    {operation : Qbe.Value → Qbe.Value → Qbe.Operation}
    (hoperation : ∀ v w, (operation v w).WellFormed P ↔ v.WellFormed P ∧ w.WellFormed P)
    {count : Number} (hcount : P (count.scale layout.stride.bytes)) (t l : Nat) :
    ∀ item ∈ move operation layout count t l, item.WellFormed P := by
  refine List.forall_mem_cons.2 ⟨?_, wellFormed_guard h t l⟩
  simp [Item.WellFormed, Qbe.Instr.WellFormed, hoperation, hcount]

theorem wellFormed_transfer (h : Admits P layout) {target : String} (htarget : IsName target)
    {descriptor : Nat} (hdescriptor : P (.ofNat descriptor)) :
    (transfer target descriptor).WellFormed P := by
  simp [transfer, Item.WellFormed, Qbe.Instr.WellFormed, const, htarget, hdescriptor, h.one]

/-- A count itself stands in the items of a change, and its multiple in those of a move. -/
def AdmitsCounts (P : Number → Prop) (layout : Tape) (ss : List (Statement α)) : Prop :=
  ∀ command count note, .counted command count note ∈ ss →
    P count ∧ P (count.scale layout.stride.bytes)

theorem AdmitsCounts.subset {ss ts : List (Statement α)} (h : AdmitsCounts P layout ss)
    (hsubset : ts ⊆ ss) : AdmitsCounts P layout ts :=
  fun command count note hmem => h command count note (hsubset hmem)

mutual

theorem wellFormed_statement (h : Admits P layout) (t l : Nat) {s : Statement α}
    (hs : AdmitsCounts P layout s.parts) :
    ∀ item ∈ statement layout t l s, item.WellFormed P := by
  cases s with
  | counted command count note =>
    obtain ⟨hcount, hdistance⟩ := hs command count note List.mem_cons_self
    cases command with
    | moveLeft => exact wellFormed_move h (fun _ _ => Iff.rfl) hdistance t l
    | moveRight => exact wellFormed_move h (fun _ _ => Iff.rfl) hdistance t l
    | increment => exact wellFormed_change (fun _ _ => Iff.rfl) hcount t
    | decrement => exact wellFormed_change (fun _ _ => Iff.rfl) hcount t
  | read note => exact List.forall_mem_singleton.2 (wellFormed_transfer h (by decide) h.zero)
  | write note => exact List.forall_mem_singleton.2 (wellFormed_transfer h (by decide) h.one)
  | loop body note =>
    have hbody := wellFormed_statements h (t + 1) (l + 1) (hs.subset (List.subset_cons_self _ _))
    simp only [statement, List.forall_mem_append, List.forall_mem_cons]
    exact ⟨wellFormed_test _ t l, isName_label (by decide) l, hbody, wellFormed_test _ _ l,
      isName_label (by decide) l, List.forall_mem_nil _⟩

theorem wellFormed_statements (h : Admits P layout) (t l : Nat) {ss : List (Statement α)}
    (hs : AdmitsCounts P layout (partsAll ss)) :
    ∀ item ∈ statements layout t l ss, item.WellFormed P := by
  cases ss with
  | nil => exact List.forall_mem_nil _
  | cons s rest =>
    have hfirst := wellFormed_statement h t l (hs.subset (List.subset_append_left _ _))
    have hrest := wellFormed_statements h (t + temps s) (l + labels s)
      (hs.subset (List.subset_append_right _ _))
    exact List.forall_mem_append.2 ⟨hfirst, hrest⟩

end

theorem wellFormed_mainFunction (h : Admits P layout) {program : List (Statement α)}
    (hcounts : AdmitsCounts P layout (partsAll program)) :
    (mainFunction layout program).WellFormed P := by
  have hprologue : ∀ item ∈ prologue layout, item.WellFormed P := by
    simp +decide [prologue, Item.WellFormed, Qbe.Instr.WellFormed, Qbe.Operation.WellFormed, const,
      h.zero, h.allocated]
  have hreturn : (Item.jump (.ret (some (const 0)))).WellFormed P := h.zero
  refine ⟨(by decide : IsName "main"), ?_⟩
  rw [items_mainFunction]
  exact List.forall_mem_append.2 ⟨hprologue, List.forall_mem_append.2
    ⟨wellFormed_statements h _ _ hcounts, List.forall_mem_singleton.2 hreturn⟩⟩

/-- Whatever its numbers are, the names of a lowered program are names. -/
theorem wellFormed_module (layout : Tape) (program : List (Statement α)) :
    Qbe.Module.WellFormed (fun _ => True) ⟨[mainFunction layout program]⟩ := by
  have hadmits : Admits (fun _ => True) layout := ⟨trivial, trivial, trivial, trivial⟩
  have hmain : (mainFunction layout program).WellFormed fun _ => True :=
    wellFormed_mainFunction hadmits fun _ _ _ _ => ⟨trivial, trivial⟩
  exact List.forall_mem_singleton.2 hmain

/-- Under an accepted tape, safe counts lead to legible numbers only. -/
theorem legible_mainFunction (h : layout.Accepted) {program : List (Statement α)}
    (hcounts : Statement.countsSafeAll program) :
    (mainFunction layout program).WellFormed Number.Legible := by
  obtain ⟨k, hk, hbytes⟩ := layout.stride.bytes_eq_two_pow
  have hadmits : Admits Number.Legible layout := by
    refine ⟨Number.legible_of_lt (by decide), Number.legible_of_lt (by decide), ?_, ?_⟩
    · rw [h.addressable_eq, hbytes]
      exact Number.legible_mul_two_pow h.size_lt (by omega)
    · rw [h.allocated_eq, hbytes, Number.two_mul_two_pow]
      exact Number.legible_mul_two_pow h.size_lt (by omega)
  refine wellFormed_mainFunction hadmits fun command count note hmem => ?_
  obtain ⟨n, rfl, _, hn⟩ := Number.isCount_iff.1 (Statement.isCount_of_mem_partsAll hcounts hmem)
  rw [Number.scale_bytes hn, hbytes]
  exact ⟨Number.legible_of_lt hn, Number.legible_mul_two_pow hn (by omega)⟩

end Lowering

end TapeCompiler
