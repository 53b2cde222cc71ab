import TapeCompiler.Proofs.ParseErrors
import TapeCompiler.Proofs.Spelling

/-! # A text is read in one way

The text alone decides how it is cut into tokens.  A character tells whether a token starts with it,
and a run is over where its character no longer comes next.  Hence `Tiles` and `Reads` are functions
of the text, and the lexemes of a text depend neither on its file nor on where it begins.

Two texts that are put side by side are read one after the other.  The exception is a run that goes
on across the border: then `Fuses` holds, and one token is read where there were two.

* `Tiles.unique`, `Reads.unique`: there is one way to read a text.
* `Tiles.moved`: the same text at another place holds the same lexemes.
* `Reads.append`: texts side by side, unless they fuse.
-/

namespace TapeCompiler

theorem Counted.char_injective {a b : Counted} (h : a.char = b.char) : a = b := by
  have hsome := congrArg Counted.ofChar? h
  rwa [Counted.ofChar?_char, Counted.ofChar?_char, Option.some.injEq] at hsome

theorem commentary_of_not_mem {c : Char} (h : c ∉ commands) : Commentary c := by
  constructor
  · cases hcounted : Counted.ofChar? c with
    | none => rfl
    | some command => exact absurd (Counted.eq_char hcounted ▸ command.char_mem) h
  · cases hbare : Bare.ofChar? c with
    | none => rfl
    | some command => exact absurd (Bare.eq_char hbare ▸ command.char_mem) h

/-! ## One tiling -/

/-- Two runs of one character are equally long if neither could have been longer. -/
theorem replicate_append_unique {c : Char} {m n : Nat} {xs ys : List Char}
    (hxs : xs.head? ≠ some c) (hys : ys.head? ≠ some c)
    (h : List.replicate m c ++ xs = List.replicate n c ++ ys) : m = n ∧ xs = ys := by
  induction m generalizing n with
  | zero =>
    cases n with
    | zero => exact ⟨rfl, h⟩
    | succ n =>
      rw [List.replicate_zero, List.nil_append] at h
      simp [h, List.replicate_succ] at hxs
  | succ m ih =>
    cases n with
    | zero =>
      rw [List.replicate_zero, List.nil_append] at h
      simp [← h, List.replicate_succ] at hys
    | succ n =>
      simp only [List.replicate_succ, List.cons_append, List.cons.injEq, true_and] at h
      obtain ⟨rfl, hrest⟩ := ih h
      exact ⟨rfl, hrest⟩

namespace Written

variable {l l' : Lexeme} {front front' text text' : List Char}

theorem exists_cons (h : Written l front) : ∃ c rest, front = c :: rest ∧ c ∈ commands := by
  cases front with
  | nil => exact absurd h.length_pos (Nat.lt_irrefl 0)
  | cons c rest => exact ⟨c, rest, rfl, h.mem_commands c List.mem_cons_self⟩

theorem counted_eq {command : Counted} {count : Number}
    (h : Written (.counted command count) front) :
    ∃ n, count = .ofNat (n + 1) ∧ front = List.replicate (n + 1) command.char := by
  cases h with
  | @counted _ n hpos =>
    obtain ⟨n, rfl⟩ := Nat.exists_eq_succ_of_ne_zero (Nat.ne_of_gt hpos)
    exact ⟨n, rfl, rfl⟩

/-- Where a text begins with a lexeme, there is no other lexeme with which it begins. -/
theorem unique (h : Written l front) (h' : Written l' front')
    (hover : ∀ c ∈ text.head?, ¬l.Grows c) (hover' : ∀ c ∈ text'.head?, ¬l'.Grows c)
    (heq : front ++ text = front' ++ text') : l = l' ∧ front = front' ∧ text = text' := by
  cases l with
  | bare command =>
    cases h
    cases l' with
    | bare command' =>
      cases h'
      simp only [List.cons_append, List.nil_append, List.cons.injEq] at heq
      obtain ⟨hchar, rfl⟩ := heq
      rw [Bare.char_injective hchar]
      exact ⟨rfl, rfl, rfl⟩
    | counted command' count =>
      obtain ⟨n, rfl, rfl⟩ := h'.counted_eq
      rw [List.replicate_succ] at heq
      exact absurd (List.cons.inj heq).1.symm (Counted.char_ne command' command)
  | counted command count =>
    obtain ⟨m, rfl, rfl⟩ := h.counted_eq
    cases l' with
    | bare command' =>
      cases h'
      rw [List.replicate_succ] at heq
      exact absurd (List.cons.inj heq).1 (Counted.char_ne command command')
    | counted command' count' =>
      obtain ⟨n, rfl, rfl⟩ := h'.counted_eq
      -- The runs are of the same command since they begin alike, and then none is the longer one.
      have hhead := (List.cons.inj heq).1
      obtain rfl := Counted.char_injective hhead
      have hends : text.head? ≠ some command.char := fun hc => hover _ hc rfl
      have hends' : text'.head? ≠ some command.char := fun hc => hover' _ hc rfl
      obtain ⟨hcount, rfl⟩ := replicate_append_unique hends hends' heq
      rw [hcount]
      exact ⟨rfl, rfl, rfl⟩

end Written

namespace Tiles

variable {file : String} {p : Cursor} {text : List Char} {ts us : List Token}

theorem unique (h : Tiles file p text ts) (h' : Tiles file p text us) : ts = us := by
  induction h generalizing us with
  | nil p =>
    generalize hall : ([] : List Char) = all at h'
    cases h' with
    | nil _ => rfl
    | skip _ _ => cases hall
    | next hfront _ _ =>
      obtain ⟨c, rest, rfl, _⟩ := hfront.exists_cons
      cases hall
  | @skip p c text ts hc _ ih =>
    generalize hall : c :: text = all at h'
    cases h' with
    | nil _ => cases hall
    | skip _ hrest =>
      cases hall
      exact ih hrest
    | next hfront _ _ =>
      obtain ⟨d, rest, rfl, hd⟩ := hfront.exists_cons
      cases hall
      exact absurd hd hc.not_mem
  | @next p l front text ts hfront hover _ ih =>
    generalize hall : front ++ text = all at h'
    cases h' with
    | nil _ =>
      obtain ⟨c, rest, rfl, _⟩ := hfront.exists_cons
      cases hall
    | skip hc _ =>
      obtain ⟨c, rest, rfl, hmem⟩ := hfront.exists_cons
      cases hall
      exact absurd hmem hc.not_mem
    | next hfront' hover' hrest =>
      obtain ⟨rfl, rfl, rfl⟩ := hfront.unique hfront' hover hover' hall
      rw [ih hrest]

/-- A text at another place, perhaps of another file, holds the same lexemes. -/
theorem moved (h : Tiles file p text ts) (g : String) (q : Cursor) :
    ∃ us, Tiles g q text us ∧ us.map Token.lexeme = ts.map Token.lexeme := by
  induction h generalizing q with
  | nil p => exact ⟨[], .nil q, rfl⟩
  | @skip p c text ts hc _ ih =>
    obtain ⟨us, hus, hlexemes⟩ := ih (q.step c)
    exact ⟨us, .skip hc hus, hlexemes⟩
  | @next p l front text ts hfront hover _ ih =>
    obtain ⟨us, hus, hlexemes⟩ := ih (q.past front)
    exact ⟨_, .next hfront hover hus, congrArg (l :: ·) hlexemes⟩

end Tiles

theorem Reads.unique {text : List Char} {ls ls' : List Lexeme} (h : Reads text ls)
    (h' : Reads text ls') : ls = ls' := by
  obtain ⟨f, p, ts, hts, rfl⟩ := h
  obtain ⟨g, q, us, hus, rfl⟩ := h'
  obtain ⟨vs, hvs, hlexemes⟩ := hus.moved f p
  rw [hts.unique hvs, hlexemes]

theorem Reads.lexemes_lex {text : List Char} {ls : List Lexeme} (h : Reads text ls)
    (file : String) : (lex file text).map Token.lexeme = ls :=
  (reads_lex file text).unique h

/-! ## Texts side by side -/

/-- A run at the end of the first text goes on at the start of the second. -/
def Fuses (a b : List Char) : Prop :=
  ∃ command : Counted, a.getLast? = some command.char ∧ b.head? = some command.char

namespace Fuses

variable {a b : List Char}

theorem append_left (h : Fuses a b) (front : List Char) : Fuses (front ++ a) b := by
  obtain ⟨command, hlast, hhead⟩ := h
  exact ⟨command, by simp [List.getLast?_append, hlast], hhead⟩

theorem of_written {l : Lexeme} {front : List Char} {c : Char} (h : Written l front)
    (hgrows : l.Grows c) (hc : b.head? = some c) : Fuses front b := by
  cases l with
  | bare command => exact hgrows.elim
  | counted command count =>
    obtain ⟨n, rfl, rfl⟩ := h.counted_eq
    refine ⟨command, ?_, hgrows ▸ hc⟩
    rw [List.replicate_succ', List.getLast?_concat]

/-- A character that is no counted command keeps two texts apart. -/
theorem not_of_head {c : Char} (hc : Counted.ofChar? c = none) : ¬Fuses a (c :: b) := by
  rintro ⟨command, _, hhead⟩
  rw [List.head?_cons, Option.some.injEq] at hhead
  simp [hhead, Counted.ofChar?_char] at hc

theorem not_of_last {c : Char} (hc : Counted.ofChar? c = none) : ¬Fuses (a ++ [c]) b := by
  rintro ⟨command, hlast, _⟩
  rw [List.getLast?_concat, Option.some.injEq] at hlast
  simp [hlast, Counted.ofChar?_char] at hc

theorem not_commentary {c : List Char} (hc : ∀ x ∈ c, Commentary x) : ¬Fuses a c := by
  cases c with
  | nil =>
    rintro ⟨command, _, hhead⟩
    cases hhead
  | cons x rest => exact not_of_head (hc x List.mem_cons_self).1

theorem of_append_commentary {c : List Char} (hc : ∀ x ∈ c, Commentary x) (h : Fuses (a ++ c) b) :
    c = [] ∧ Fuses a b := by
  by_cases hempty : c = []
  · rw [hempty, List.append_nil] at h
    exact ⟨hempty, h⟩
  · -- What comes before `b` is the last character of the commentary.
    rw [← List.dropLast_append_getLast hempty, ← List.append_assoc] at h
    exact absurd h (not_of_last (hc _ (List.getLast_mem hempty)).1)

end Fuses

theorem Tiles.append {file : String} {p : Cursor} {a b : List Char} {ts us : List Token}
    (ha : Tiles file p a ts) (hb : Tiles file (p.past a) b us) (hborder : ¬Fuses a b) :
    Tiles file p (a ++ b) (ts ++ us) := by
  induction ha with
  | nil p => exact hb
  | @skip p c text ts hc _ ih =>
    exact .skip hc (ih hb fun hfuses => hborder (hfuses.append_left [c]))
  | @next p l front text ts hfront hover _ ih =>
    rw [Cursor.past_append] at hb
    have hrest := ih hb fun hfuses => hborder (hfuses.append_left front)
    have hover' : ∀ c ∈ (text ++ b).head?, ¬l.Grows c := by
      intro c hc hgrows
      cases text with
      | nil =>
        rw [List.append_nil] at hborder
        exact hborder (.of_written hfront hgrows hc)
      | cons d rest => exact hover c hc hgrows
    rw [List.append_assoc]
    exact .next hfront hover' hrest

namespace Reads

variable {a b : List Char} {ls ms : List Lexeme}

theorem append (ha : Reads a ls) (hb : Reads b ms) (hborder : ¬Fuses a b) :
    Reads (a ++ b) (ls ++ ms) := by
  obtain ⟨f, p, ts, hts, rfl⟩ := ha
  obtain ⟨g, q, us, hus, rfl⟩ := hb
  obtain ⟨vs, hvs, hlexemes⟩ := hus.moved f (p.past a)
  exact ⟨f, p, ts ++ vs, hts.append hvs hborder, by rw [List.map_append, hlexemes]⟩

theorem of_commentary (h : ∀ c ∈ a, Commentary c) : Reads a [] := by
  have htiles : Tiles "" .start (a ++ []) [] := .commentary_append h (.nil _)
  rw [List.append_nil] at htiles
  exact ⟨"", .start, [], htiles, rfl⟩

theorem of_written {l : Lexeme} (h : Written l a) : Reads a [l] := by
  have htiles : Tiles "" .start (a ++ []) [⟨l, .between "" .start (Cursor.start.past a)⟩] :=
    .next h (by simp) (.nil _)
  rw [List.append_nil] at htiles
  exact ⟨"", .start, _, htiles, rfl⟩

end Reads

end TapeCompiler
