import TapeCompiler.Proofs.Grammar
import TapeCompiler.Proofs.Tiling

/-! # The text of a program

How lists of lexemes and trees are spelled in characters, with commentary anywhere between commands.

* `Reads`: the lexemes of a text.  `reads_lex` says that lexing finds them.
* `Spells`: the same for a tree, whose loops are spelled between brackets.
* `spells_of_parse`: a text that is lexed and parsed spells the tree.
-/

namespace TapeCompiler

/-- A text holds these lexemes in this order, and besides them only commentary. -/
def Reads (text : List Char) (ls : List Lexeme) : Prop :=
  ∃ file p ts, Tiles file p text ts ∧ ts.map Token.lexeme = ls

/-- Lexing finds the lexemes of a text. -/
theorem reads_lex (file : String) (text : List Char) :
    Reads text ((lex file text).map Token.lexeme) :=
  ⟨file, .start, _, tiles_lex file text, rfl⟩

/-! ## Trees -/

/-- A text spells these statements in this order, and besides them holds only commentary. -/
inductive Spells {α : Type} : List Char → List (Statement α) → Prop where
  | nil : Spells [] []
  | skip {c : Char} {text : List Char} {ss : List (Statement α)} :
      Commentary c → Spells text ss → Spells (c :: text) ss
  | counted (command : Counted) (note : α) {n : Nat} {text : List Char} {ss : List (Statement α)} :
      0 < n → Spells text ss →
      Spells (List.replicate n command.char ++ text) (.counted command (.ofNat n) note :: ss)
  | read (note : α) {text : List Char} {ss : List (Statement α)} :
      Spells text ss → Spells (',' :: text) (.read note :: ss)
  | write (note : α) {text : List Char} {ss : List (Statement α)} :
      Spells text ss → Spells ('.' :: text) (.write note :: ss)
  | loop (note : α) {inner text : List Char} {body ss : List (Statement α)} :
      Spells inner body → Spells text ss →
      Spells ('[' :: (inner ++ ']' :: text)) (.loop body note :: ss)

open Statement (lexemes lexemesAll)

/-- Commentary comes before the first lexeme. -/
theorem Reads.cons_inv {l : Lexeme} {text : List Char} {ls : List Lexeme}
    (h : Reads text (l :: ls)) :
    ∃ skipped front rest, text = skipped ++ (front ++ rest) ∧ (∀ c ∈ skipped, Commentary c) ∧
      Written l front ∧ Reads rest ls := by
  obtain ⟨file, p, ts, htiles, hts⟩ := h
  obtain ⟨t, us, rfl, rfl, rfl⟩ := List.map_eq_cons_iff.1 hts
  obtain ⟨skipped, front, rest, rfl, hskipped, hfront, _, _, hrest⟩ := htiles.cons_inv
  exact ⟨skipped, front, rest, rfl, hskipped, hfront, file, _, us, hrest, rfl⟩

theorem Reads.nil_inv {text : List Char} (h : Reads text []) : ∀ c ∈ text, Commentary c := by
  obtain ⟨file, p, ts, htiles, hts⟩ := h
  rw [List.map_eq_nil_iff.1 hts] at htiles
  exact htiles.nil_inv

namespace Spells

variable {α : Type} {text skipped : List Char} {ss : List (Statement α)}

theorem skips (h : Spells text ss) (hskipped : ∀ c ∈ skipped, Commentary c) :
    Spells (skipped ++ text) ss := by
  induction skipped with
  | nil => exact h
  | cons c rest ih =>
    obtain ⟨hc, hrest⟩ := List.forall_mem_cons.1 hskipped
    exact .skip hc (ih hrest)

theorem append_commentary (h : Spells text ss) (hskipped : ∀ c ∈ skipped, Commentary c) :
    Spells (text ++ skipped) ss := by
  induction h with
  | nil => simpa using Spells.nil.skips hskipped
  | skip hc _ ih => exact .skip hc ih
  | counted command note hpos _ ih =>
    rw [List.append_assoc]
    exact .counted command note hpos ih
  | read note _ ih => exact .read note ih
  | write note _ ih => exact .write note ih
  | loop note hinner _ _ ih =>
    rw [List.cons_append, List.append_assoc, List.cons_append]
    exact .loop note hinner ih

end Spells

/-- A text whose lexemes begin with those of some statements begins by spelling them. -/
theorem spells_of_reads {α : Type} {ss : List (Statement α)} {ls : List Lexeme} {text : List Char}
    (h : Reads text (lexemesAll ss ++ ls)) :
    ∃ spelled rest, text = spelled ++ rest ∧ Spells spelled ss ∧ Reads rest ls := by
  match ss with
  | [] => exact ⟨[], text, rfl, .nil, h⟩
  | .counted command count note :: ss =>
    obtain ⟨skipped, front, rest, rfl, hskipped, hfront, hrest⟩ := h.cons_inv
    obtain ⟨spelled, rest, rfl, hspelled, hrest⟩ := spells_of_reads hrest
    cases hfront with
    | counted _ hpos =>
      exact ⟨_, rest, by simp, (hspelled.counted command note hpos).skips hskipped, hrest⟩
  | .read note :: ss =>
    obtain ⟨skipped, front, rest, rfl, hskipped, ⟨⟩, hrest⟩ := h.cons_inv
    obtain ⟨spelled, rest, rfl, hspelled, hrest⟩ := spells_of_reads hrest
    exact ⟨_, rest, by simp [Bare.char], (hspelled.read note).skips hskipped, hrest⟩
  | .write note :: ss =>
    obtain ⟨skipped, front, rest, rfl, hskipped, ⟨⟩, hrest⟩ := h.cons_inv
    obtain ⟨spelled, rest, rfl, hspelled, hrest⟩ := spells_of_reads hrest
    exact ⟨_, rest, by simp [Bare.char], (hspelled.write note).skips hskipped, hrest⟩
  | .loop body note :: ss =>
    simp only [lexemesAll, lexemes, List.cons_append, List.append_assoc, List.nil_append] at h
    obtain ⟨skipped, front, after, rfl, hskipped, ⟨⟩, hafter⟩ := h.cons_inv
    obtain ⟨inner, behind, rfl, hinner, hbehind⟩ := spells_of_reads hafter
    -- What is skipped before the closing bracket still belongs to the body.
    obtain ⟨skipped', front, left, rfl, hskipped', ⟨⟩, hleft⟩ := hbehind.cons_inv
    obtain ⟨spelled, rest, rfl, hspelled, hrest⟩ := spells_of_reads hleft
    have hbody := hinner.append_commentary hskipped'
    exact ⟨_, rest, by simp [Bare.char], (hbody.loop note hspelled).skips hskipped, hrest⟩

theorem spells_of_parse {file : String} {text : List Char} {program : List (Statement Span)}
    (h : parse (lex file text) = .ok program) : Spells text program := by
  have hreads := reads_lex file text
  rw [← lexemesAll_of_parse h, ← List.append_nil (lexemesAll program)] at hreads
  obtain ⟨spelled, rest, rfl, hspelled, hrest⟩ := spells_of_reads hreads
  exact hspelled.append_commentary hrest.nil_inv

end TapeCompiler
