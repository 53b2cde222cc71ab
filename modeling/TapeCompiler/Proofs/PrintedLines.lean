import Mathlib.Tactic.MkIffOfInductiveProp
import TapeCompiler.Number.Text
import TapeCompiler.Proofs.Vocabulary
import TapeCompiler.Qbe.Printer

/-! # The lines of a printed module

The text of a module can be read item by item: it is cut into lines at its line feeds and each line
into words at its blanks.

* `Text.Unbroken`: a text that is not cut.
* `Qbe.Item.line`, `Qbe.Item.words`: the line of an item and the words of that line.
* `Number.all_text`: the characters of numbers.
* `Qbe.Module.words_text`: the words of a printed module are those of its items.
-/

namespace TapeCompiler

/-! ## Lines and words -/

namespace Text

def cut (mark : Char) (text : String) : List String :=
  (text.toList.splitOn mark).map String.ofList

/-- The words of every line of a text. -/
def words (text : String) : List (List String) := (cut '\n' text).map (cut ' ')

theorem cut_intercalate {mark : Char} {glue : String} (hglue : glue.toList = [mark])
    {parts : List String} (hne : parts ≠ []) (h : ∀ part ∈ parts, mark ∉ part.toList) :
    cut mark (glue.intercalate parts) = parts := by
  rw [cut, String.toList_intercalate, hglue, List.splitOn_intercalate]
  · simp [Function.comp_def]
  · intro chars hchars
    obtain ⟨part, hpart, rfl⟩ := List.mem_map.1 hchars
    exact h part hpart
  · simpa using hne

/-- A text without a blank and without a line feed. -/
def Unbroken (word : String) : Prop := ∀ c ∈ word.toList, c ≠ ' ' ∧ c ≠ '\n'

instance (word : String) : Decidable (Unbroken word) :=
  decidable_of_iff (word.toList.all fun c => c != ' ' && c != '\n') (by simp [Unbroken])

@[simp] theorem unbroken_append {a b : String} : Unbroken (a ++ b) ↔ Unbroken a ∧ Unbroken b := by
  simp only [Unbroken, String.toList_append, List.forall_mem_append]

/-- The words of a line that can be cut into them again. -/
@[mk_iff]
structure IsLine (words : List String) : Prop where
  ne_nil : words ≠ []
  unbroken : ∀ word ∈ words, Unbroken word

theorem IsLine.lineFeed_not_mem {words : List String} (h : IsLine words) :
    '\n' ∉ (" ".intercalate words).toList := by
  obtain ⟨hne, hunbroken⟩ := h
  induction words with
  | nil => exact absurd rfl hne
  | cons word rest ih =>
    obtain ⟨hword, hrest⟩ := List.forall_mem_cons.1 hunbroken
    have hfirst : '\n' ∉ word.toList := fun hmem => (hword _ hmem).2 rfl
    rcases Decidable.em (rest = []) with rfl | hrest_ne
    · simpa using hfirst
    · simpa [String.intercalate_cons_of_ne_nil hrest_ne, hfirst] using ih hrest_ne hrest

theorem words_of_lines {lines : List (List String)} (hne : lines ≠ [])
    (h : ∀ line ∈ lines, IsLine line) :
    words ("\n".intercalate (lines.map " ".intercalate)) = lines := by
  have hlines : cut '\n' ("\n".intercalate (lines.map " ".intercalate)) =
      lines.map " ".intercalate := by
    apply cut_intercalate rfl (by simpa using hne)
    intro text htext
    obtain ⟨line, hline, rfl⟩ := List.mem_map.1 htext
    exact (h line hline).lineFeed_not_mem
  rw [words, hlines, List.map_map]
  conv_rhs => rw [← List.map_id lines]
  apply List.map_congr_left
  intro line hline
  exact cut_intercalate rfl (h line hline).ne_nil
    fun word hword hmem => ((h line hline).unbroken word hword ' ' hmem).1 rfl

end Text

/-! ## Numbers -/

namespace Number

/-- A character that stands in the text of some number. -/
def isNumeric (c : Char) : Bool := c.isDigit || c ∈ ['-', '+', '.', 'e', 'I', 'n', 'f', 'i', 't', 'y']

theorem all_toDigits (n : Nat) : (Nat.toDigits 10 n).all isNumeric := by
  apply List.all_eq_true.2
  intro c hc
  simp [isNumeric, Nat.isDigit_of_mem_toDigits (by decide) (by decide) hc]

theorem all_significantDigits (m : Nat) : (significantDigits m).all isNumeric := by
  apply List.all_eq_true.2
  intro c hc
  have hmem := (List.dropWhile_sublist _).subset (List.mem_reverse.1 hc)
  exact List.all_eq_true.1 (all_toDigits m) c (List.mem_reverse.1 hmem)

theorem all_digits_shortest (n d : Nat) : (shortest n d).digits.all isNumeric := by
  unfold shortest
  cases hfound : (List.range 17).findSome? fun k => shortestOfLength? n d (k + 1) with
  | none => exact all_significantDigits n
  | some decimal =>
    obtain ⟨k, -, hk⟩ := List.exists_of_findSome?_eq_some hfound
    simp only [shortestOfLength?, Option.map_eq_some_iff] at hk
    obtain ⟨m, -, rfl⟩ := hk
    exact all_significantDigits m

theorem all_leadText {digits : List Char} (h : digits.all isNumeric) :
    (leadText digits).all isNumeric := by
  fun_cases leadText digits with
  | case1 => exact h
  | case2 d => exact h
  | case3 d rest hrest =>
    simp only [List.all_cons, Bool.and_eq_true] at h ⊢
    exact ⟨h.1, rfl, h.2⟩

theorem all_layout (style : Style) {d : Decimal} (h : d.digits.all isNumeric) :
    (style.layout d).all isNumeric := by
  have hzeros : ∀ k, (List.replicate k '0').all isNumeric := fun k => by simp [isNumeric]
  have htake : ∀ k, (d.digits.take k).all isNumeric ∧ (d.digits.drop k).all isNumeric := by
    intro k
    rw [← Bool.and_eq_true, ← List.all_append, List.take_append_drop, h]
  have hlead := all_leadText h
  simp only [Style.layout]
  split
  · split
    · rw [List.all_append, h, hzeros]
      rfl
    · rw [List.all_append, List.all_cons, (htake _).1, (htake _).2]
      rfl
  · split
    · rw [List.all_append, List.all_cons, List.all_cons, h, hzeros]
      rfl
    · have hsign : ∀ b : Prop, [Decidable b] → isNumeric (if b then '-' else '+') := by
        intro b _
        split <;> rfl
      rw [List.all_append, List.all_cons, List.all_cons, hlead, hsign, all_toDigits]
      rfl

theorem all_ofList {chars : List Char} (h : chars.all isNumeric) :
    (String.ofList chars).toList.all isNumeric := by rwa [String.toList_ofList]

theorem all_minus {word : String} (h : word.toList.all isNumeric) :
    ("-" ++ word).toList.all isNumeric := by
  rw [String.toList_append, List.all_append, h]
  rfl

theorem all_ratioText (negative : Bool) (n d : Nat) :
    (ratioText negative n d).toList.all isNumeric := by
  have hlayout := all_ofList (all_layout plain (all_digits_shortest n d))
  cases negative with
  | false => exact hlayout
  | true => exact all_minus hlayout

theorem all_natText (n : Nat) : (natText n).toList.all isNumeric := all_ofList (all_toDigits n)

theorem all_text (n : Number) : n.text.toList.all isNumeric := by
  cases n with
  | integer i =>
    simp only [text, intText]
    split
    · split
      · exact all_minus (all_natText _)
      · exact all_natText _
    · exact all_ratioText _ _ _
  | fraction i k => exact all_ratioText _ _ _
  | infinity negative => cases negative <;> rfl

theorem unbroken_of_all {word : String} (h : word.toList.all isNumeric) : Text.Unbroken word := by
  intro c hc
  have hnumeric := List.all_eq_true.1 h c hc
  constructor <;> rintro rfl <;> cases hnumeric

@[simp] theorem unbroken_text (n : Number) : Text.Unbroken n.text := unbroken_of_all n.all_text

end Number

/-! ## Items -/

namespace Qbe

open Text (Unbroken)

@[simp] theorem unbroken_baseType (type : BaseType) : Unbroken type.text := by
  cases type <;> decide

@[simp] theorem unbroken_loadOp (op : LoadOp) : Unbroken op.text := by
  cases op <;> decide

@[simp] theorem unbroken_storeOp (op : StoreOp) : Unbroken op.text := by
  cases op <;> decide

def Operation.words : Operation → List String
  | .copy value => ["copy", value.text]
  | .add lhs rhs => ["add", lhs.text ++ ",", rhs.text]
  | .sub lhs rhs => ["sub", lhs.text ++ ",", rhs.text]
  | .load op address => [op.text, address.text]
  | .alloc8 bytes => ["alloc8", bytes.text]
  | .above type lhs rhs => ["cugt" ++ type.text, lhs.text ++ ",", rhs.text]

/-- The words of the arguments of a call, the first with what stands before it. -/
def argumentWords (opening : String) : List Argument → List String
  | [] => [opening ++ ")"]
  | [a] => [opening ++ a.type.text, a.value.text ++ ")"]
  | a :: rest => (opening ++ a.type.text) :: (a.value.text ++ ",") :: argumentWords "" rest

def Instr.words : Instr → List String
  | .assign dest type operation => ("\t" ++ dest.text) :: ("=" ++ type.text) :: operation.words
  | .store op value address => ["\t" ++ op.text, value.text ++ ",", address.text]
  | .call target args => "\tcall" :: argumentWords ("$" ++ target ++ "(") args

def Jump.words : Jump → List String
  | .jnz cond ifNonZero ifZero =>
    ["\tjnz", cond.text ++ ",", "@" ++ ifNonZero ++ ",", "@" ++ ifZero]
  | .ret none => ["\tret"]
  | .ret (some value) => ["\tret", value.text]

def Item.words : Item → List String
  | .label name => ["@" ++ name]
  | .instr i => i.words
  | .jump j => j.words

def Item.line : Item → String
  | .label name => "@" ++ name
  | .instr i => "\t" ++ i.text
  | .jump j => "\t" ++ j.text

theorem Operation.intercalate_words (op : Operation) : " ".intercalate op.words = op.text := by
  apply String.toList_injective
  cases op <;> simp [words, text, String.intercalate_cons_cons]

theorem argumentWords_ne_nil (opening : String) (args : List Argument) :
    argumentWords opening args ≠ [] := by
  fun_cases argumentWords opening args <;> simp

theorem intercalate_argumentWords (opening : String) (args : List Argument) :
    " ".intercalate (argumentWords opening args) =
      opening ++ ", ".intercalate (args.map Argument.text) ++ ")" := by
  apply String.toList_injective
  fun_induction argumentWords opening args with
  | case1 opening => simp
  | case2 opening a => simp [Argument.text, String.intercalate_cons_cons]
  | case3 opening a rest hrest ih =>
    have hmap : rest.map Argument.text ≠ [] := fun h => hrest (List.map_eq_nil_iff.1 h)
    simpa [String.intercalate_cons_cons,
      String.intercalate_cons_of_ne_nil (argumentWords_ne_nil "" rest),
      String.intercalate_cons_of_ne_nil hmap, Argument.text] using ih

theorem Instr.intercalate_words (i : Instr) : " ".intercalate i.words = "\t" ++ i.text := by
  apply String.toList_injective
  cases i with
  | assign dest type operation =>
    have hne : operation.words ≠ [] := by cases operation <;> simp [Operation.words]
    simp [words, text, String.intercalate_cons_cons, String.intercalate_cons_of_ne_nil hne,
      operation.intercalate_words]
  | store op value address => simp [words, text, String.intercalate_cons_cons]
  | call target args =>
    simp [words, text, String.intercalate_cons_of_ne_nil (argumentWords_ne_nil _ args),
      intercalate_argumentWords]

theorem Jump.intercalate_words (j : Jump) : " ".intercalate j.words = "\t" ++ j.text := by
  apply String.toList_injective
  fun_cases Jump.words j <;> simp [text, String.intercalate_cons_cons]

theorem Item.intercalate_words (item : Item) : " ".intercalate item.words = item.line := by
  cases item with
  | label name => exact String.intercalate_singleton
  | instr i => exact i.intercalate_words
  | jump j => exact j.intercalate_words

theorem unbroken_of_isName {name : String} (h : IsName name) : Unbroken name := by
  intro c hc
  have hchar := h.2 c hc
  constructor <;> rintro rfl <;> cases hchar

section WellFormed

variable {P : Number → Prop}

theorem Value.unbroken_text {v : Value} (h : v.WellFormed P) : Unbroken v.text := by
  cases v with
  | temp name => exact Text.unbroken_append.2 ⟨by decide, unbroken_of_isName h⟩
  | const n => exact n.unbroken_text

theorem Operation.unbroken_words {op : Operation} (h : op.WellFormed P) :
    ∀ word ∈ op.words, Unbroken word := by
  cases op with
  | copy v => simp +decide [words, Value.unbroken_text h]
  | add v w | sub v w | above type v w =>
    simp +decide [words, Value.unbroken_text h.1, Value.unbroken_text h.2]
  | load op address => simp +decide [words, Value.unbroken_text h]
  | alloc8 bytes => simp +decide [words]

theorem unbroken_argumentWords {opening : String} (hopening : Unbroken opening)
    {args : List Argument} (h : ∀ a ∈ args, a.value.WellFormed P) :
    ∀ word ∈ argumentWords opening args, Unbroken word := by
  fun_induction argumentWords opening args with
  | case1 opening => simp +decide [hopening]
  | case2 opening a => simp +decide [hopening, Value.unbroken_text (h a (by simp))]
  | case3 opening a rest hrest ih =>
    have hlater := ih (by decide) (fun b hb => h b (List.mem_cons_of_mem a hb))
    refine List.forall_mem_cons.2 ⟨?_, List.forall_mem_cons.2 ⟨?_, hlater⟩⟩
    · simp [hopening]
    · simp +decide [Value.unbroken_text (h a (by simp))]

theorem Item.isLine_words {item : Item} (h : item.WellFormed P) : Text.IsLine item.words := by
  cases item with
  | label name => simp +decide [words, Text.isLine_iff, unbroken_of_isName h]
  | instr i =>
    cases i with
    | assign dest type operation =>
      refine ⟨List.cons_ne_nil _ _, List.forall_mem_cons.2 ⟨?_, List.forall_mem_cons.2 ⟨?_, ?_⟩⟩⟩
      · simp +decide [Value.unbroken_text h.1]
      · simp +decide
      · exact Operation.unbroken_words h.2
    | store op value address =>
      simp +decide [words, Instr.words, Text.isLine_iff, Value.unbroken_text h.1,
        Value.unbroken_text h.2]
    | call target args =>
      have hopening : Unbroken ("$" ++ target ++ "(") := by
        simp +decide [unbroken_of_isName h.1]
      exact ⟨List.cons_ne_nil _ _,
        List.forall_mem_cons.2 ⟨by decide, unbroken_argumentWords hopening h.2⟩⟩
  | jump j =>
    fun_cases Jump.words j with
    | case1 cond ifNonZero ifZero =>
      simp +decide [words, Jump.words, Text.isLine_iff, Value.unbroken_text h.1,
        unbroken_of_isName h.2.1, unbroken_of_isName h.2.2]
    | case2 => simp +decide [words, Jump.words, Text.isLine_iff]
    | case3 value => simp +decide [words, Jump.words, Text.isLine_iff, Value.unbroken_text h]

/-! ## Functions and modules -/

theorem Block.lines_eq (b : Block) : b.lines = b.items.map Item.line := by
  cases hjump : b.jump <;> simp [Block.lines, Block.items, Item.line, Function.comp_def, hjump]

theorem Function.lines_eq (f : Function) : f.lines = f.header :: f.items.map Item.line ++ ["\x7d"] := by
  rw [Function.lines, Function.items, List.map_flatMap, funext Block.lines_eq]

namespace Function

def headerWords (f : Function) : List String :=
  (if f.exported then ["export"] else []) ++
    "function" :: ((f.returnType.map BaseType.text).toList ++ ["$" ++ f.name ++ "()", "\x7b"])

def words (f : Function) : List (List String) :=
  f.headerWords :: (f.items.map Item.words ++ [["\x7d"]])

theorem intercalate_headerWords (f : Function) : " ".intercalate f.headerWords = f.header := by
  obtain ⟨exported, name, returnType, blocks⟩ := f
  apply String.toList_injective
  cases exported <;> cases returnType <;>
    simp [headerWords, header, String.intercalate_cons_cons]

theorem map_intercalate_words (f : Function) : f.words.map " ".intercalate = f.lines := by
  simp [lines_eq, words, intercalate_headerWords, Function.comp_def, Item.intercalate_words]

theorem isLine_words {f : Function} (h : f.WellFormed P) : ∀ line ∈ f.words, Text.IsLine line := by
  have hheader : Text.IsLine f.headerWords := by
    have hname := unbroken_of_isName h.name
    cases hexported : f.exported <;> cases htype : f.returnType <;>
      simp +decide [headerWords, Text.isLine_iff, hexported, htype, hname]
  refine List.forall_mem_cons.2 ⟨hheader, List.forall_mem_append.2 ⟨?_, ?_⟩⟩
  · intro line hline
    obtain ⟨item, hitem, rfl⟩ := List.mem_map.1 hline
    exact Item.isLine_words (h.items item hitem)
  · simp +decide [Text.isLine_iff]

end Function

namespace Module

/-- The words of a module, a line each; an empty line follows every function. -/
def words (m : Module) : List (List String) := m.functions.flatMap fun f => f.words ++ [[""]]

theorem text_eq (m : Module) : m.text = "\n".intercalate (m.words.map " ".intercalate) := by
  obtain ⟨functions⟩ := m
  induction functions with
  | nil => rfl
  | cons f rest ih =>
    have hne : f.lines ≠ [] := List.cons_ne_nil _ _
    have hfunction : f.text ++ "\n" = "\n".intercalate (f.lines ++ [""]) := by
      rw [String.intercalate_append_of_ne_nil hne (by decide)]
      simp [Function.text]
    have hwords : (words ⟨f :: rest⟩).map " ".intercalate =
        f.lines ++ [""] ++ (words ⟨rest⟩).map " ".intercalate := by
      simp [words, Function.map_intercalate_words]
    rw [hwords]
    cases rest with
    | nil => simpa [text, words] using hfunction
    | cons g rest =>
      rw [String.intercalate_append_of_ne_nil (by simp) (by simp [words]), ← ih, ← hfunction]
      simp [text, String.intercalate_cons_cons]

theorem isLine_words {m : Module} (h : m.WellFormed P) : ∀ line ∈ m.words, Text.IsLine line := by
  intro line hline
  obtain ⟨f, hf, hline⟩ := List.mem_flatMap.1 hline
  obtain hline | hline := List.mem_append.1 hline
  · exact Function.isLine_words (h f hf) line hline
  · rw [List.mem_singleton.1 hline]
    simp +decide [Text.isLine_iff]

/-- The words of a printed module can be read off its text. -/
theorem words_text {m : Module} (h : m.WellFormed P) (hne : m.functions ≠ []) :
    Text.words m.text = m.words := by
  have hwords : m.words ≠ [] := by
    obtain ⟨f, rest, hfunctions⟩ := List.exists_cons_of_ne_nil hne
    simp [words, hfunctions, Function.words]
  rw [text_eq]
  exact Text.words_of_lines hwords (isLine_words h)

end Module

end WellFormed

end Qbe

namespace Lowering

open Qbe (Item)

variable {α : Type}

/-! ## Lowered programs -/

/-- The words of a program, a line each: its items between the line that opens the function and the
one that closes it. -/
def programWords (layout : Tape) (program : List (Statement α)) : List (List String) :=
  ["export", "function", "w", "$main()", "\x7b"] :: (body layout program).map Item.words ++
    [["\x7d"], [""]]

/-- Whatever the numbers of a program are, its words can be read off its text. -/
theorem words_text (layout : Tape) (program : List (Statement α)) :
    Text.words (Qbe.Module.text ⟨[mainFunction layout program]⟩) = programWords layout program := by
  have hheader : (mainFunction layout program).headerWords =
      ["export", "function", "w", "$main()", "\x7b"] := rfl
  rw [Qbe.Module.words_text (wellFormed_module layout program) (List.cons_ne_nil _ _)]
  simp [Qbe.Module.words, Qbe.Function.words, items_mainFunction, programWords, hheader]

end Lowering

end TapeCompiler
