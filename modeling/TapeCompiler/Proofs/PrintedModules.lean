import TapeCompiler.Proofs.PrintedLines

/-! # Modules from their texts

No two modules have the same text, as long as their names are names and no two of their numbers have
the same text.  The words of a line tell the item that it was printed from: the first word tells an
assignment, a store, a call, a jump and a label apart, and the words behind it have a fixed shape for
each.  A function ends with the first line that holds a closing brace alone.

* `Qbe.Operation.words_injective`, `Qbe.argumentWords_injective`: the words of an operation and of the
  arguments of a call.
* `Qbe.Item.words_injective`: the words of a line.
* `Qbe.Function.words_append`: the lines of a function are told from those behind it.
* `Qbe.Module.text_injective`: whole modules.
-/

namespace TapeCompiler.Qbe

/-- Numbers of which no two have the same text. -/
def Distinct (P : Number → Prop) : Prop := ∀ m n, P m → P n → m.text = n.text → m = n

variable {P : Number → Prop}

/-! ## Keywords and operands -/

@[simp] theorem BaseType.text_inj {s t : BaseType} : s.text = t.text ↔ s = t := by
  cases s <;> cases t <;> simp [text]

@[simp] theorem LoadOp.text_inj {s t : LoadOp} : s.text = t.text ↔ s = t := by
  cases s <;> cases t <;> simp [text]

@[simp] theorem StoreOp.text_inj {s t : StoreOp} : s.text = t.text ↔ s = t := by
  cases s <;> cases t <;> simp [text]

/-- An operand begins with a percent sign or with a character of a number. -/
theorem Value.toList_text_ne {v : Value} {c : Char} (hpercent : c ≠ '%')
    (hnumeric : Number.isNumeric c = false) (rest : List Char) : v.text.toList ≠ c :: rest := by
  intro h
  cases v with
  | temp name =>
    have hfirst := (List.cons.inj (String.toList_append ▸ h)).1
    exact hpercent hfirst.symm
  | const n =>
    have hmem : c ∈ n.text.toList := h ▸ List.mem_cons_self
    rw [List.all_eq_true.1 n.all_text c hmem] at hnumeric
    cases hnumeric

theorem Value.text_inj (distinct : Distinct P) {v w : Value} (hv : v.WellFormed P)
    (hw : w.WellFormed P) : v.text = w.text ↔ v = w := by
  refine ⟨fun h => ?_, fun h => h ▸ rfl⟩
  -- No number has a percent sign in its text.
  have hpercent : ∀ (n : Number) (name : String), n.text ≠ "%" ++ name := by
    intro n name hn
    have hmem : '%' ∈ n.text.toList := by simp [hn]
    cases List.all_eq_true.1 n.all_text '%' hmem
  cases v with
  | temp name =>
    cases w with
    | temp name' => rw [(String.append_right_inj "%").1 h]
    | const n => exact absurd h.symm (hpercent n name)
  | const m =>
    cases w with
    | temp name => exact absurd h (hpercent m name)
    | const n => rw [distinct m n hv hw h]

@[simp] theorem append_type_inj {a b : String} {s t : BaseType} :
    a ++ s.text = b ++ t.text ↔ a = b ∧ s = t := by
  rw [← String.toList_inj]
  cases s <;> cases t <;> simp [BaseType.text, String.toList_inj]

/-! ## Operations and arguments -/

@[simp] theorem LoadOp.text_ne (op : LoadOp) : op.text ≠ "copy" ∧ op.text ≠ "alloc8" := by
  cases op <;> decide

@[simp] theorem above_ne (type : BaseType) :
    "cugt" ++ type.text ≠ "add" ∧ "cugt" ++ type.text ≠ "sub" := by
  cases type <;> decide

theorem Operation.words_injective (distinct : Distinct P) {a b : Operation} (ha : a.WellFormed P)
    (hb : b.WellFormed P) (h : a.words = b.words) : a = b := by
  cases a with
  | copy v =>
    cases b with
    | copy w => simpa [words, Value.text_inj distinct ha hb] using h
    | load op address => simp [words, op.text_ne.1.symm] at h
    | _ => simp [words] at h
  | add v w =>
    cases b with
    | add v' w' =>
      simpa [words, Value.text_inj distinct ha.1 hb.1, Value.text_inj distinct ha.2 hb.2] using h
    | above type v' w' => simp [words, (above_ne type).1.symm] at h
    | _ => simp [words] at h
  | sub v w =>
    cases b with
    | sub v' w' =>
      simpa [words, Value.text_inj distinct ha.1 hb.1, Value.text_inj distinct ha.2 hb.2] using h
    | above type v' w' => simp [words, (above_ne type).2.symm] at h
    | _ => simp [words] at h
  | load op v =>
    cases b with
    | load op' w => simpa [words, Value.text_inj distinct ha hb] using h
    | _ => simp [words] at h
  | alloc8 bytes =>
    cases b with
    | alloc8 bytes' =>
      simp only [words, List.cons.injEq, and_true, true_and] at h
      rw [distinct bytes bytes' ha hb h]
    | load op address => simp [words, op.text_ne.2.symm] at h
    | _ => simp [words] at h
  | above type v w =>
    cases b with
    | above type' v' w' =>
      simpa [words, Value.text_inj distinct ha.1 hb.1, Value.text_inj distinct ha.2 hb.2] using h
    | _ => simp [words] at h

/-- The words of the arguments of a call tell the arguments and what stands before them. -/
theorem argumentWords_injective (distinct : Distinct P) {opening opening' : String}
    {args args' : List Argument} (hargs : ∀ a ∈ args, a.value.WellFormed P)
    (hargs' : ∀ a ∈ args', a.value.WellFormed P)
    (h : argumentWords opening args = argumentWords opening' args') :
    opening = opening' ∧ args = args' := by
  induction args generalizing opening opening' args' with
  | nil =>
    cases args' with
    | nil => simpa [argumentWords] using h
    | cons a' rest' => cases rest' <;> simp [argumentWords] at h
  | cons a rest ih =>
    cases args' with
    | nil => cases rest <;> simp [argumentWords] at h
    | cons a' rest' =>
      obtain ⟨ha, hrest⟩ := List.forall_mem_cons.1 hargs
      obtain ⟨ha', hrest'⟩ := List.forall_mem_cons.1 hargs'
      obtain ⟨type, value⟩ := a
      obtain ⟨type', value'⟩ := a'
      -- A value is followed by the bracket or the comma of the next argument, never by both.
      cases rest with
      | nil =>
        cases rest' with
        | nil => simpa [argumentWords, Value.text_inj distinct ha ha', and_assoc] using h
        | cons b' more' => simp [argumentWords, (argumentWords_ne_nil _ _).symm] at h
      | cons b more =>
        cases rest' with
        | nil => simp [argumentWords, argumentWords_ne_nil] at h
        | cons b' more' =>
          simp only [argumentWords, List.cons.injEq, append_type_inj, String.append_left_inj,
            Value.text_inj distinct ha ha'] at h
          obtain ⟨⟨rfl, rfl⟩, rfl, hwords⟩ := h
          rw [(ih hrest hrest' hwords).2]
          exact ⟨rfl, rfl⟩

/-! ## Lines -/

/-- What a line may begin with, unless it is a label or begins with an operand. -/
def keywords : List String := ["\tstoreb", "\tstorew", "\tcall", "\tjnz", "\tret"]

theorem Value.tab_ne (v : Value) {word : String} (hword : word ∈ keywords) :
    "\t" ++ v.text ≠ word := by
  intro h
  -- Behind its tab a keyword begins with one of four letters, none of which begins an operand.
  have hletter : ∀ word ∈ keywords,
      ∃ c rest, word.toList = '\t' :: c :: rest ∧ c ≠ '%' ∧ Number.isNumeric c = false := by
    simp [keywords, Number.isNumeric]
  obtain ⟨c, rest, hlist, hpercent, hnumeric⟩ := hletter word hword
  rw [← h, String.toList_append] at hlist
  exact toList_text_ne hpercent hnumeric rest (List.cons.inj hlist).2

theorem StoreOp.tab_ne (op : StoreOp) {word : String} (hword : word ∈ ["\tcall", "\tjnz", "\tret"]) :
    "\t" ++ op.text ≠ word := by
  simp only [List.mem_cons, List.not_mem_nil, or_false] at hword
  obtain rfl | rfl | rfl := hword <;> cases op <;> decide

theorem StoreOp.tab_mem (op : StoreOp) : "\t" ++ op.text ∈ keywords := by
  cases op <;> decide

theorem Instr.words_injective (distinct : Distinct P) {i j : Instr} (hi : i.WellFormed P)
    (hj : j.WellFormed P) (h : i.words = j.words) : i = j := by
  have hfirst := congrArg List.head? h
  cases i with
  | assign dest type operation =>
    cases j with
    | assign dest' type' operation' =>
      simp only [words, List.cons.injEq, String.append_right_inj, BaseType.text_inj] at h
      obtain ⟨hdest, htype, hwords⟩ := h
      rw [(Value.text_inj distinct hi.1 hj.1).1 hdest, htype,
        Operation.words_injective distinct hi.2 hj.2 hwords]
    | store op value address => exact absurd (Option.some.inj hfirst) (dest.tab_ne op.tab_mem)
    | call target args => exact absurd (Option.some.inj hfirst) (dest.tab_ne (by decide))
  | store op value address =>
    cases j with
    | store op' value' address' =>
      simpa [words, Value.text_inj distinct hi.1 hj.1, Value.text_inj distinct hi.2 hj.2] using h
    | assign dest type operation =>
      exact absurd (Option.some.inj hfirst).symm (dest.tab_ne op.tab_mem)
    | call target args => exact absurd (Option.some.inj hfirst) (op.tab_ne (by decide))
  | call target args =>
    cases j with
    | call target' args' =>
      simp only [words, List.cons.injEq, true_and] at h
      obtain ⟨htarget, hargs⟩ := argumentWords_injective distinct hi.2 hj.2 h
      rw [hargs, (String.append_right_inj "$").1 ((String.append_left_inj "(").1 htarget)]
    | assign dest type operation =>
      exact absurd (Option.some.inj hfirst).symm (dest.tab_ne (by decide))
    | store op value address => exact absurd (Option.some.inj hfirst).symm (op.tab_ne (by decide))

theorem Jump.words_injective (distinct : Distinct P) {i j : Jump} (hi : i.WellFormed P)
    (hj : j.WellFormed P) (h : i.words = j.words) : i = j := by
  cases i with
  | jnz cond ifNonZero ifZero =>
    cases j with
    | jnz cond' ifNonZero' ifZero' =>
      simpa [words, Value.text_inj distinct hi.1 hj.1] using h
    | ret value => cases value <;> simp [words] at h
  | ret value =>
    cases j with
    | jnz cond ifNonZero ifZero => cases value <;> simp [words] at h
    | ret value' =>
      cases value with
      | none => cases value' <;> simp [words] at h ⊢
      | some v =>
        cases value' with
        | none => simp [words] at h
        | some w => simpa [words, Value.text_inj distinct hi hj] using h

theorem Instr.words_ne_jump (i : Instr) (j : Jump) : i.words ≠ j.words := by
  intro h
  have hfirst := congrArg List.head? h
  have hjump : ∃ word ∈ ["\tjnz", "\tret"], j.words.head? = some word := by
    fun_cases Jump.words j <;> simp
  obtain ⟨word, hword, hhead⟩ := hjump
  rw [hhead] at hfirst
  have hmem : word ∈ ["\tcall", "\tjnz", "\tret"] := List.mem_cons_of_mem _ hword
  cases i with
  | assign dest type operation =>
    exact dest.tab_ne (List.mem_append_right ["\tstoreb", "\tstorew"] hmem) (Option.some.inj hfirst)
  | store op value address => exact op.tab_ne hmem (Option.some.inj hfirst)
  | call target args =>
    rw [← Option.some.inj hfirst] at hword
    revert hword
    decide

/-- The first character of a line. -/
def Item.mark : Item → Char
  | .label _ => '@'
  | .instr _ => '\t'
  | .jump _ => '\t'

theorem Item.mark_eq (item : Item) :
    item.words.head?.bind (fun word => word.toList.head?) = some item.mark := by
  cases item with
  | label name => simp [words, mark]
  | instr i => cases i <;> simp [words, Instr.words, mark]
  | jump j => fun_cases Jump.words j <;> simp [words, Jump.words, mark]

theorem Item.words_injective (distinct : Distinct P) {a b : Item} (ha : a.WellFormed P)
    (hb : b.WellFormed P) (h : a.words = b.words) : a = b := by
  have hmark : a.mark = b.mark := by
    have hfirst := a.mark_eq
    rw [h, b.mark_eq] at hfirst
    exact (Option.some.inj hfirst).symm
  cases a with
  | label name =>
    cases b with
    | label name' => simpa [words] using h
    | instr j => exact absurd hmark (by simp [mark])
    | jump j => exact absurd hmark (by simp [mark])
  | instr i =>
    cases b with
    | label name => exact absurd hmark (by simp [mark])
    | instr j => rw [Instr.words_injective distinct ha hb h]
    | jump j => exact absurd h (i.words_ne_jump j)
  | jump i =>
    cases b with
    | label name => exact absurd hmark (by simp [mark])
    | instr j => exact absurd h.symm (j.words_ne_jump i)
    | jump j => rw [Jump.words_injective distinct ha hb h]

/-! ## Functions and modules -/

theorem Function.eq_of_items {f g : Function} (hheader : f.headerWords = g.headerWords)
    (hitems : f.items = g.items) : f = g := by
  have hblocks : f.blocks = g.blocks := by
    have hlisting := congrArg listingOf hitems
    rw [items, items, listingOf_items, listingOf_items] at hlisting
    exact congrArg Listing.blocks hlisting
  obtain ⟨exported, name, returnType, blocks⟩ := f
  obtain ⟨exported', name', returnType', blocks'⟩ := g
  -- The number of words tells which of the linkage and the return type are there, up to the two
  -- headers with one of them, and there the first word tells.
  cases exported <;> cases exported' <;> cases returnType <;> cases returnType' <;>
    simp_all [headerWords]

/-- The items of a function are told from the lines behind them, as none of them is a closing brace. -/
theorem items_append (distinct : Distinct P) {xs ys : List Item} {rest rest' : List (List String)}
    (hxs : ∀ item ∈ xs, item.WellFormed P) (hys : ∀ item ∈ ys, item.WellFormed P)
    (h : xs.map Item.words ++ ["\x7d"] :: rest = ys.map Item.words ++ ["\x7d"] :: rest') :
    xs = ys ∧ rest = rest' := by
  have hbrace : ∀ item : Item, item.words ≠ ["\x7d"] := by
    intro item hitem
    have hmark := item.mark_eq
    rw [hitem] at hmark
    cases item <;> simp [Item.mark] at hmark
  induction xs generalizing ys with
  | nil =>
    cases ys with
    | nil => exact ⟨rfl, (List.cons.inj h).2⟩
    | cons y ys => exact absurd (List.cons.inj h).1.symm (hbrace y)
  | cons x xs ih =>
    cases ys with
    | nil => exact absurd (List.cons.inj h).1 (hbrace x)
    | cons y ys =>
      obtain ⟨hx, hxs⟩ := List.forall_mem_cons.1 hxs
      obtain ⟨hy, hys⟩ := List.forall_mem_cons.1 hys
      obtain ⟨hfirst, hlater⟩ := List.cons.inj h
      obtain ⟨rfl, hrest⟩ := ih hxs hys hlater
      exact ⟨by rw [Item.words_injective distinct hx hy hfirst], hrest⟩

theorem Function.words_append (distinct : Distinct P) {f g : Function}
    {rest rest' : List (List String)} (hf : f.WellFormed P) (hg : g.WellFormed P)
    (h : f.words ++ rest = g.words ++ rest') : f = g ∧ rest = rest' := by
  simp only [words, List.cons_append, List.append_assoc, List.nil_append] at h
  obtain ⟨hheader, hlines⟩ := List.cons.inj h
  obtain ⟨hitems, hrest⟩ := items_append distinct hf.items hg.items hlines
  exact ⟨eq_of_items hheader hitems, hrest⟩

namespace Module

theorem words_injective (distinct : Distinct P) {m n : Module} (hm : m.WellFormed P)
    (hn : n.WellFormed P) (h : m.words = n.words) : m = n := by
  obtain ⟨fs⟩ := m
  obtain ⟨gs⟩ := n
  induction fs generalizing gs with
  | nil =>
    cases gs with
    | nil => rfl
    | cons g gs => simp [words, Function.words] at h
  | cons f fs ih =>
    cases gs with
    | nil => simp [words, Function.words] at h
    | cons g gs =>
      obtain ⟨hf, hfs⟩ := List.forall_mem_cons.1 hm
      obtain ⟨hg, hgs⟩ := List.forall_mem_cons.1 hn
      simp only [words, List.flatMap_cons, List.append_assoc] at h
      obtain ⟨rfl, hlater⟩ := Function.words_append distinct hf hg h
      have hrest : Module.mk fs = ⟨gs⟩ := ih hfs gs hgs (List.cons.inj hlater).2
      rw [Module.mk.inj hrest]

theorem text_eq_empty_iff (m : Module) : m.text = "" ↔ m.functions = [] := by
  obtain ⟨functions⟩ := m
  cases functions with
  | nil => simp [text]
  | cons f rest => cases rest <;> simp [text, String.intercalate_cons_cons]

theorem text_injective (distinct : Distinct P) {m n : Module} (hm : m.WellFormed P)
    (hn : n.WellFormed P) (h : m.text = n.text) : m = n := by
  -- The words of a text are those of its module only if there is a function in it.
  by_cases hfunctions : m.functions = []
  · have hempty : n.functions = [] := by
      rw [← text_eq_empty_iff, ← h, text_eq_empty_iff, hfunctions]
    obtain ⟨fs⟩ := m
    obtain ⟨gs⟩ := n
    rw [show fs = [] from hfunctions, show gs = [] from hempty]
  · have hne : n.functions ≠ [] := by
      rwa [Ne, ← text_eq_empty_iff, ← h, text_eq_empty_iff]
    apply words_injective distinct hm hn
    rw [← words_text hm hfunctions, ← words_text hn hne, h]

end Module

theorem distinct_legible : Distinct Number.Legible := fun _ _ => Number.text_injective

theorem distinct_safe : Distinct fun n => n.isSafeInteger :=
  fun _ _ hm hn => Number.text_injective (Number.legible_of_safe hm) (Number.legible_of_safe hn)

/-- Two modules whose names are names and whose numbers are safe integers have the same text only if
they are the same. -/
theorem Module.text_eq_text_iff {m n : Module} (hm : m.WellFormed fun k => k.isSafeInteger)
    (hn : n.WellFormed fun k => k.isSafeInteger) : m.text = n.text ↔ m = n := by
  constructor
  · intro h
    exact text_injective distinct_safe hm hn h
  · intro h
    rw [h]

theorem Module.text_eq_text_iff_jumpless :
    (⟨[⟨false, "f", none, [⟨"a", [.assign (.const (.integer 1)) .word (.copy (.temp "x.0"))], none⟩,
      ⟨"b", [], some (.ret none)⟩]⟩]⟩ : Module).text ≠
    (⟨[⟨false, "f", none, [⟨"a", [.assign (.const (.integer 1)) .word (.copy (.temp "x.0"))],
      some (.ret none)⟩, ⟨"b", [], none⟩]⟩]⟩ : Module).text := by
  rw [Ne, text_eq_text_iff (by decide) (by decide)]
  decide

end TapeCompiler.Qbe
