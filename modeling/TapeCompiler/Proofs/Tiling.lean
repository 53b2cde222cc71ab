import Mathlib.Data.List.Basic
import TapeCompiler.Proofs.Positions
import TapeCompiler.Token.Lexer

/-! # Tokens tile the text

The tokens of a text lie side by side with its commentary, and together the two make up the text.

* `Written`: the characters that a lexeme is written with.
* `Tiles`: a text is cut into tokens and commentary.  `tiles_lex` says that lexing does so.
* `Tiles.cut`: a text around one of its tokens.
* `lex_tiles_text`: what that means for the code units under each token.

The reader closes a run only when it meets another character, so what it has found is known up to
the open run.  `Scan.finds` speaks of every state of the reader: the open run is read once more,
together with the text ahead.
-/

namespace TapeCompiler

/-! ## Commands and commentary -/

/-- The eight characters that are commands. -/
def commands : List Char := ['<', '>', '+', '-', ',', '.', '[', ']']

/-- A character that is no command. -/
def Commentary (c : Char) : Prop := Counted.ofChar? c = none ∧ Bare.ofChar? c = none

theorem Counted.eq_char {c : Char} {command : Counted} (h : ofChar? c = some command) :
    c = command.char := by
  unfold ofChar? at h
  split at h <;> cases h <;> rfl

theorem Bare.eq_char {c : Char} {command : Bare} (h : ofChar? c = some command) :
    c = command.char := by
  unfold ofChar? at h
  split at h <;> cases h <;> rfl

theorem Counted.ofChar?_char (command : Counted) : ofChar? command.char = some command := by
  cases command <;> rfl

theorem Counted.char_mem (command : Counted) : command.char ∈ commands := by
  cases command <;> decide

theorem Bare.char_mem (command : Bare) : command.char ∈ commands := by
  cases command <;> decide

theorem Commentary.not_mem {c : Char} (h : Commentary c) : c ∉ commands := by
  intro hmem
  obtain ⟨hcounted, hbare⟩ := h
  simp only [commands, List.mem_cons, List.not_mem_nil, or_false] at hmem
  -- Four of the eight characters are counted commands, the other four are bare ones.
  rcases hmem with rfl | rfl | rfl | rfl | rfl | rfl | rfl | rfl
  all_goals simp [Counted.ofChar?, Bare.ofChar?] at hcounted hbare

/-- The characters of a lexeme: a run of at least one, or a single one. -/
inductive Written : Lexeme → List Char → Prop where
  | bare (command : Bare) : Written (.bare command) [command.char]
  | counted (command : Counted) {n : Nat} :
      0 < n → Written (.counted command (.ofNat n)) (List.replicate n command.char)

namespace Written

variable {l : Lexeme} {front : List Char}

theorem mem_commands (h : Written l front) : ∀ c ∈ front, c ∈ commands := by
  intro c hc
  cases h with
  | bare command =>
    rw [List.mem_singleton.1 hc]
    exact command.char_mem
  | counted command _ =>
    rw [List.eq_of_mem_replicate hc]
    exact command.char_mem

theorem length_pos (h : Written l front) : 0 < front.length := by
  cases h with
  | bare command => exact Nat.one_pos
  | counted command hpos => rwa [List.length_replicate]

theorem ne_nil (h : Written l front) : front ≠ [] := List.ne_nil_of_length_pos h.length_pos

/-- Commands take one code unit each. -/
theorem units_eq (h : Written l front) : Text.units front = front := by
  apply Text.units_eq_self
  intro c hc
  cases h with
  | bare command =>
    rw [List.mem_singleton.mp hc]
    cases command <;> rfl
  | counted command hpos =>
    rw [List.eq_of_mem_replicate hc]
    cases command <;> rfl

end Written

/-- A run is not over where its own character comes next. -/
def Lexeme.Grows : Lexeme → Char → Prop
  | .counted command _, c => c = command.char
  | .bare _, _ => False

theorem Lexeme.Grows.mem_commands {l : Lexeme} {c : Char} (h : l.Grows c) : c ∈ commands := by
  cases l with
  | counted command count =>
    cases h
    exact command.char_mem
  | bare command => exact h.elim

/-- A lexeme that ends with the character of a run is a run of that character too. -/
theorem Written.grows_of_touching {l l' : Lexeme} {front front' : List Char} {c : Char}
    (h : Written l front) (hlast : front.getLast? = some c) (h' : Written l' front')
    (hgrows : l'.Grows c) : l.Grows c ∧ front'.head? = some c := by
  cases h' with
  | bare command => exact hgrows.elim
  | counted command' hpos' =>
    cases hgrows
    refine ⟨?_, by rw [List.head?_replicate, if_neg (Nat.ne_of_gt hpos')]⟩
    cases h with
    | bare command => cases command <;> cases command' <;> cases hlast
    | counted command hpos =>
      rw [List.getLast?_replicate, if_neg (Nat.ne_of_gt hpos), Option.some.injEq] at hlast
      exact hlast.symm

/-- A text that begins at a cursor holds these tokens in this order, and besides them only
commentary. -/
inductive Tiles (file : String) : Cursor → List Char → List Token → Prop where
  | nil (p : Cursor) : Tiles file p [] []
  | skip {p : Cursor} {c : Char} {text : List Char} {ts : List Token} :
      Commentary c → Tiles file (p.step c) text ts → Tiles file p (c :: text) ts
  | next {p : Cursor} {l : Lexeme} {front text : List Char} {ts : List Token} :
      Written l front → (∀ c ∈ text.head?, ¬l.Grows c) → Tiles file (p.past front) text ts →
      Tiles file p (front ++ text) (⟨l, .between file p (p.past front)⟩ :: ts)

/-! ## Lexing -/

namespace Scan

def openText (s : Scan) : List Char :=
  match s.run with
  | none => []
  | some run => List.replicate run.count run.command.char

/-- Where the text that is not yet part of a token begins. -/
def origin (s : Scan) : Cursor :=
  match s.run with
  | none => s.here
  | some run => run.start

/-- The open run is not empty and ends where the reader stands. -/
def Sound (s : Scan) : Prop :=
  ∀ run, s.run = some run →
    0 < run.count ∧ run.start.past (List.replicate run.count run.command.char) = s.here

/-- Reading on from `s` finds the tokens of the open run and the text behind it. -/
def Finds (file : String) (s : Scan) (text : List Char) : Prop :=
  ∃ ts, (text.foldl (step file) s).finish file = s.tokens.reverse ++ ts ∧
    Tiles file s.origin (s.openText ++ text) ts

variable {file : String}

theorem run_close (s : Scan) : (s.close file).run = none := by
  unfold close
  split
  · assumption
  · rfl

theorem here_close (s : Scan) : (s.close file).here = s.here := by
  unfold close
  split <;> rfl

theorem close_of_run_none {s : Scan} (h : s.run = none) : s.close file = s := by
  rw [close, h]

theorem sound_of_run_none {s : Scan} (h : s.run = none) : s.Sound := by
  intro run hrun
  rw [h] at hrun
  cases hrun

/-- A run may be closed before reading on wherever its character does not come next and closing
makes no difference to the end. -/
theorem finds_of_close {s : Scan} {text : List Char} (hs : s.Sound)
    (hnext : ∀ run, s.run = some run → ∀ c ∈ text.head?, c ≠ run.command.char)
    (hsame : (text.foldl (step file) s).finish file =
      (text.foldl (step file) (s.close file)).finish file)
    (h : Finds file (s.close file) text) : Finds file s text := by
  cases hrun : s.run with
  | none => rwa [close_of_run_none hrun] at h
  | some run =>
    obtain ⟨hpos, hhere⟩ := hs run hrun
    obtain ⟨ts, hts, htiles⟩ := h
    simp only [openText, origin, run_close, here_close, List.nil_append] at htiles
    refine ⟨⟨.counted run.command (.ofNat run.count), .between file run.start s.here⟩ :: ts, ?_, ?_⟩
    · rw [hsame, hts]
      simp [close, hrun]
    · simp only [openText, origin, hrun]
      rw [← hhere] at htiles ⊢
      exact .next (.counted run.command hpos) (hnext run hrun) htiles

theorem finds_of_run_none {s : Scan} {c : Char} {text : List Char} (hrun : s.run = none)
    (ih : ∀ s : Scan, s.Sound → Finds file s text) : Finds file s (c :: text) := by
  cases hcounted : Counted.ofChar? c with
  | some command =>
    have hc := Counted.eq_char hcounted
    have hstep : step file s c = ⟨s.here.step c, some ⟨command, 1, s.here⟩, s.tokens⟩ := by
      simp only [step, hcounted, extend, hrun]
    have hsound : (step file s c).Sound := by
      rw [hstep]
      rintro _ ⟨⟩
      exact ⟨Nat.one_pos, by simp [hc]⟩
    obtain ⟨ts, hts, htiles⟩ := ih (step file s c) hsound
    refine ⟨ts, by rw [List.foldl_cons, hts, hstep], ?_⟩
    rw [hstep] at htiles
    simpa [openText, origin, hrun, hc] using htiles
  | none =>
    cases hbare : Bare.ofChar? c with
    | some command =>
      have hc := Bare.eq_char hbare
      have hstep : step file s c = ⟨s.here.step c, none,
          ⟨.bare command, .between file s.here (s.here.step c)⟩ :: s.tokens⟩ := by
        simp only [step, hcounted, hbare, close_of_run_none hrun, hrun]
      obtain ⟨ts, hts, htiles⟩ := ih (step file s c) (sound_of_run_none (by rw [hstep]))
      refine ⟨⟨.bare command, .between file s.here (s.here.step c)⟩ :: ts,
        by rw [List.foldl_cons, hts, hstep]; simp, ?_⟩
      rw [hstep] at htiles
      simp only [openText, origin, hrun, List.nil_append, hc] at htiles ⊢
      exact .next (.bare command) (fun _ _ hgrows => hgrows) htiles
    | none =>
      have hstep : step file s c = { s with here := s.here.step c } := by
        simp only [step, hcounted, hbare, close_of_run_none hrun]
      obtain ⟨ts, hts, htiles⟩ := ih (step file s c) (sound_of_run_none (by rw [hstep, hrun]))
      refine ⟨ts, by rw [List.foldl_cons, hts, hstep], ?_⟩
      rw [hstep] at htiles
      simp only [openText, origin, hrun, List.nil_append] at htiles ⊢
      exact .skip ⟨hcounted, hbare⟩ htiles

theorem finds (file : String) (text : List Char) (s : Scan) (hs : s.Sound) :
    Finds file s text := by
  induction text generalizing s with
  | nil =>
    refine finds_of_close hs (by simp) ?_ ⟨[], by simp [finish, close_of_run_none (run_close s)], ?_⟩
    · simp only [List.foldl_nil, finish, close_of_run_none (run_close s)]
    · simp only [openText, run_close]
      exact .nil _
  | cons c text ih =>
    cases hrun : s.run with
    | none => exact finds_of_run_none hrun ih
    | some run =>
      by_cases hgrow : Counted.ofChar? c = some run.command
      · -- The character belongs to the open run, which has grown by it.
        have hc := Counted.eq_char hgrow
        have hstep : step file s c =
            ⟨s.here.step c, some { run with count := run.count + 1 }, s.tokens⟩ := by
          simp only [step, hgrow, extend, hrun, if_true]
        have hsound : (step file s c).Sound := by
          rw [hstep]
          rintro _ ⟨⟩
          refine ⟨Nat.succ_pos _, ?_⟩
          rw [List.replicate_succ', Cursor.past_append, (hs run hrun).2, hc]
          rfl
        obtain ⟨ts, hts, htiles⟩ := ih (step file s c) hsound
        refine ⟨ts, by rw [List.foldl_cons, hts, hstep], ?_⟩
        rw [hstep] at htiles
        simpa [openText, origin, hrun, hc, List.replicate_succ'] using htiles
      · -- The character closes the run and is then read as if there had been none.
        have hstep : step file s c = step file (s.close file) c := by
          cases hcounted : Counted.ofChar? c with
          | none => simp [step, hcounted, close, hrun]
          | some command =>
            have hne : run.command ≠ command := fun h => hgrow (by rw [hcounted, h])
            simp [step, hcounted, extend, close, hrun, hne]
        have hnext : ∀ r, s.run = some r → ∀ d ∈ (c :: text).head?, d ≠ r.command.char := by
          rintro r hr d ⟨⟩ rfl
          rw [hrun, Option.some.injEq] at hr
          subst hr
          exact hgrow run.command.ofChar?_char
        refine finds_of_close hs hnext ?_ (finds_of_run_none (run_close s) ih)
        rw [List.foldl_cons, List.foldl_cons, hstep]

end Scan

theorem tiles_lex (file : String) (text : List Char) : Tiles file .start text (lex file text) := by
  obtain ⟨ts, hts, htiles⟩ := Scan.finds file text .start (Scan.sound_of_run_none rfl)
  rw [lex, hts]
  exact htiles

/-! ## Where a token lies -/

namespace Tiles

variable {file : String} {p : Cursor} {text : List Char} {t : Token} {ts us : List Token}

theorem nil_inv (h : Tiles file p text []) : ∀ c ∈ text, Commentary c := by
  generalize hall : [] = all at h
  induction h with
  | nil p => exact List.forall_mem_nil _
  | skip hc _ ih => exact List.forall_mem_cons.2 ⟨hc, ih hall⟩
  | next _ _ _ => cases hall

/-- Commentary comes before the first token. -/
theorem cons_inv (h : Tiles file p text (t :: ts)) :
    ∃ skipped front rest, text = skipped ++ (front ++ rest) ∧ (∀ c ∈ skipped, Commentary c) ∧
      Written t.lexeme front ∧ (∀ c ∈ rest.head?, ¬t.lexeme.Grows c) ∧
      t.span = .between file (p.past skipped) ((p.past skipped).past front) ∧
      Tiles file ((p.past skipped).past front) rest ts := by
  generalize hall : t :: ts = all at h
  induction h with
  | nil p => cases hall
  | @skip p c text _ hc _ ih =>
    obtain ⟨skipped, front, rest, rfl, hskipped, hrest⟩ := ih hall
    exact ⟨c :: skipped, front, rest, rfl, List.forall_mem_cons.2 ⟨hc, hskipped⟩, hrest⟩
  | @next p l front text _ hfront hover hrest _ =>
    cases hall
    exact ⟨[], front, text, rfl, List.forall_mem_nil _, hfront, hover, rfl, hrest⟩

theorem commentary_append {skipped : List Char} (hskipped : ∀ c ∈ skipped, Commentary c)
    (h : Tiles file (p.past skipped) text ts) : Tiles file p (skipped ++ text) ts := by
  induction skipped generalizing p with
  | nil => exact h
  | cons c rest ih =>
    obtain ⟨hc, hrest⟩ := List.forall_mem_cons.1 hskipped
    exact .skip hc (ih hrest h)

/-- A text can be cut around each of its tokens.  A run does not go on beyond either cut: what comes
before would otherwise have taken its characters, or it would have taken what comes behind. -/
theorem cut (h : Tiles file p text (ts ++ t :: us)) :
    ∃ before front rest, text = before ++ (front ++ rest) ∧ Tiles file p before ts ∧
      Written t.lexeme front ∧
      t.span = .between file (p.past before) ((p.past before).past front) ∧
      (∀ c ∈ before.getLast?, ¬t.lexeme.Grows c) ∧ (∀ c ∈ rest.head?, ¬t.lexeme.Grows c) ∧
      Tiles file ((p.past before).past front) rest us := by
  induction ts generalizing p text with
  | nil =>
    obtain ⟨skipped, front, rest, rfl, hskipped, hfront, hover, hspan, hrest⟩ := h.cons_inv
    have hbefore : Tiles file p (skipped ++ []) [] := commentary_append hskipped (.nil _)
    rw [List.append_nil] at hbefore
    refine ⟨skipped, front, rest, rfl, hbefore, hfront, hspan, fun c hc hgrows => ?_, hover, hrest⟩
    exact (hskipped c (List.mem_of_getLast? hc)).not_mem hgrows.mem_commands
  | cons s ts ih =>
    obtain ⟨lexeme, span⟩ := s
    obtain ⟨skipped, front, rest, rfl, hskipped, hfront, hover, hspan, hrest⟩ := h.cons_inv
    obtain ⟨before, front', rest', rfl, hbefore, hfront', hspan', hleft, hright, hrest'⟩ := ih hrest
    cases hspan
    have hover' : ∀ c ∈ before.head?, ¬lexeme.Grows c := by
      intro c hc
      exact hover c (by rw [Option.mem_def] at hc ⊢; simp [List.head?_append, hc])
    refine ⟨skipped ++ (front ++ before), front', rest', by simp,
      commentary_append hskipped (.next hfront hover' hbefore), hfront', ?_, ?_, hright, ?_⟩
    · rw [Cursor.past_append, Cursor.past_append]
      exact hspan'
    · intro c hc hgrows
      by_cases hempty : before = []
      · -- The two tokens touch, so the first would have grown by the second.
        rw [hempty, List.append_nil, List.getLast?_append_of_ne_nil _ hfront.ne_nil] at hc
        obtain ⟨hgrows', hhead⟩ := hfront.grows_of_touching hc hfront' hgrows
        exact hover c (by rw [hempty, List.nil_append, List.head?_append, hhead]; rfl) hgrows'
      · rw [← List.append_assoc, List.getLast?_append_of_ne_nil _ hempty] at hc
        exact hleft c hc hgrows
    · rw [Cursor.past_append, Cursor.past_append]
      exact hrest'

/-- A text can be cut in two before each of its tokens. -/
theorem split (h : Tiles file p text (ts ++ t :: us)) :
    ∃ before front rest, text = before ++ (front ++ rest) ∧ Tiles file p before ts ∧
      Written t.lexeme front ∧
      t.span = .between file (p.past before) ((p.past before).past front) := by
  obtain ⟨before, front, rest, htext, hbefore, hfront, hspan, _⟩ := h.cut
  exact ⟨before, front, rest, htext, hbefore, hfront, hspan⟩

end Tiles

/-! ## Code units under tokens -/

namespace Token

/-- The first code unit under a token. -/
def first (t : Token) : Nat := t.span.start.offset.index?.getD 0

/-- The code unit behind a token. -/
def behind (t : Token) : Nat := t.span.stop.offset.index?.getD 0

/-- Whether a code unit lies under a token. -/
def covers (t : Token) (k : Nat) : Bool := t.first ≤ k ∧ k < t.behind

/-- A token lies within a text, on the characters that it is written with. -/
structure LiesIn (t : Token) (text : List Char) : Prop where
  start_offset : t.span.start.offset = .ofNat t.first
  stop_offset : t.span.stop.offset = .ofNat t.behind
  nonempty : t.first < t.behind
  within : t.behind ≤ (Text.units text).length
  written : Written t.lexeme ((Text.units text).extract t.first t.behind)

theorem liesIn_of_span {t : Token} {file : String} {before front rest : List Char}
    (hfront : Written t.lexeme front)
    (hspan : t.span = .between file (Cursor.start.past before)
      ((Cursor.start.past before).past front)) :
    t.LiesIn (before ++ (front ++ rest)) := by
  have hfirst : t.first = (Text.units before).length := by
    simp [first, hspan, Span.between, Cursor.position, Cursor.start]
  have hbehind : t.behind = (Text.units before).length + front.length := by
    simp [behind, hspan, Span.between, Cursor.position, Cursor.start, hfront.units_eq]
  have hlength := hfront.length_pos
  refine ⟨?_, ?_, by omega, ?_, ?_⟩
  · simp [first, hspan, Span.between, Cursor.position]
  · simp [behind, hspan, Span.between, Cursor.position]
  · simp only [hbehind, Text.units_append, hfront.units_eq, List.length_append]
    omega
  · have hslice : (Text.units (before ++ (front ++ rest))).extract t.first t.behind = front := by
      simp [hfirst, hbehind, hfront.units_eq]
    rw [hslice]
    exact hfront

end Token

namespace Tiles

variable {file : String} {p : Cursor} {text : List Char} {ts : List Token}

theorem offset_le_first (h : Tiles file p text ts) : ∀ t ∈ ts, p.offset ≤ t.first := by
  induction h with
  | nil p => exact List.forall_mem_nil _
  | skip _ _ ih =>
    intro t ht
    have hle := ih t ht
    rw [Cursor.offset_step] at hle
    omega
  | next _ _ _ ih =>
    refine List.forall_mem_cons.2 ⟨Nat.le_refl _, fun t ht => ?_⟩
    have hle := ih t ht
    rw [Cursor.offset_past] at hle
    omega

theorem pairwise (h : Tiles file p text ts) : ts.Pairwise fun s t => s.behind ≤ t.first := by
  induction h with
  | nil p => exact .nil
  | skip _ _ ih => exact ih
  | next _ _ hrest ih => exact List.pairwise_cons.2 ⟨hrest.offset_le_first, ih⟩

theorem covers_eq_false (h : Tiles file p text ts) {k : Nat} (hk : k < p.offset) :
    ts.countP (·.covers k) = 0 := by
  rw [List.countP_eq_zero]
  intro t ht
  have hle := h.offset_le_first t ht
  simp only [Token.covers, decide_eq_true_eq]
  omega

theorem countP_covers (h : Tiles file p text ts) {k : Nat} {c : Char}
    (hc : (Text.units text)[k]? = some c) :
    ts.countP (·.covers (p.offset + k)) = if c ∈ commands then 1 else 0 := by
  induction h generalizing k with
  | nil p => cases hc
  | @skip p d text ts hd hrest ih =>
    have hoffset := p.offset_step d
    rw [Text.units_cons] at hc
    by_cases hk : k < Text.width d
    · -- The unit is one of the skipped character, and all tokens come later.
      rw [List.getElem?_append_left (by rwa [List.length_replicate]),
        List.getElem?_replicate_of_lt hk, Option.some.injEq] at hc
      rw [← hc, if_neg hd.not_mem]
      exact hrest.covers_eq_false (by omega)
    · rw [List.getElem?_append_right (by rw [List.length_replicate]; omega),
        List.length_replicate] at hc
      have hrest := ih hc
      rwa [hoffset, Nat.add_assoc, Nat.add_sub_cancel' (by omega)] at hrest
  | @next p l front text ts hfront _ hrest ih =>
    have hoffset := p.offset_past front
    rw [Text.units_append, hfront.units_eq] at hc
    rw [hfront.units_eq] at hoffset
    have hcovers : (⟨l, .between file p (p.past front)⟩ : Token).covers (p.offset + k) =
        decide (k < front.length) := by
      simp [Token.covers, Token.first, Token.behind, Span.between, Cursor.position, hfront.units_eq]
    by_cases hk : k < front.length
    · -- The unit is under the first token, and only there.
      rw [List.getElem?_append_left hk] at hc
      rw [if_pos (hfront.mem_commands c (List.mem_of_getElem? hc)), List.countP_cons, hcovers,
        hrest.covers_eq_false (by omega)]
      simp [hk]
    · rw [List.getElem?_append_right (by omega)] at hc
      have hrest := ih hc
      rw [hoffset, Nat.add_assoc, Nat.add_sub_cancel' (by omega)] at hrest
      rw [List.countP_cons, hcovers, hrest]
      simp [hk]

/-- Where a token begins right at the start of the text, there its first character stands. -/
theorem head_of_first_eq {t : Token} (h : Tiles file p text (t :: ts)) (hfirst : t.first = p.offset) :
    ∃ front rest, text = front ++ rest ∧ Written t.lexeme front := by
  obtain ⟨skipped, front, rest, rfl, _, hfront, _, hspan, _⟩ := h.cons_inv
  cases skipped with
  | nil => exact ⟨front, rest, rfl, hfront⟩
  | cons c skipped =>
    have hpos := Text.length_units_pos c skipped
    simp only [Token.first, hspan, Span.between, Cursor.position, Number.index?_ofNat,
      Option.getD_some, Cursor.offset_past] at hfirst
    omega

theorem isChain (h : Tiles file p text ts) :
    ts.IsChain fun s t => s.lexeme.isCounted → s.kind = t.kind → s.behind ≠ t.first := by
  induction h with
  | nil p => exact .nil
  | skip _ _ ih => exact ih
  | @next p l front text ts _ hover hrest ih =>
    cases ts with
    | nil => exact .singleton _
    | cons t ts =>
      refine .cons_cons (fun hcounted hkind htouch => ?_) ih
      -- The next token would begin with the character that would have made the run longer.
      obtain ⟨front', rest, rfl, hfront'⟩ := hrest.head_of_first_eq htouch.symm
      obtain ⟨lexeme, span⟩ := t
      cases hfront' with
      | bare command => cases l <;> simp [Token.kind, Lexeme.kind, Lexeme.isCounted] at hkind hcounted
      | @counted command n hpos =>
        obtain ⟨n, rfl⟩ := Nat.exists_eq_succ_of_ne_zero (Nat.ne_of_gt hpos)
        cases l with
        | bare _ => cases hcounted
        | counted command' _ =>
          have hsame : command' = command := by simpa [Token.kind, Lexeme.kind] using hkind
          exact hover command.char (by simp [List.replicate_succ]) (by rw [hsame]; rfl)

end Tiles

/-- Tokens tile their text exactly.  Each lies within it, on the characters that it is written
with; they follow one another without overlapping; a code unit is under one token if it is a command
and else under none; and a run ends only where its character does. -/
theorem lex_tiles_text (file : String) (text : List Char) :
    (∀ t ∈ lex file text, t.LiesIn text) ∧
      (lex file text).Pairwise (fun s t => s.behind ≤ t.first) ∧
      (∀ k c, (Text.units text)[k]? = some c →
        (lex file text).countP (·.covers k) = if c ∈ commands then 1 else 0) ∧
      (lex file text).IsChain fun s t => s.lexeme.isCounted → s.kind = t.kind → s.behind ≠ t.first := by
  have htiles := tiles_lex file text
  refine ⟨fun t ht => ?_, htiles.pairwise, fun k c hc => ?_, htiles.isChain⟩
  · obtain ⟨ts, us, hsplit⟩ := List.append_of_mem ht
    rw [hsplit] at htiles
    obtain ⟨before, front, rest, rfl, _, hfront, hspan⟩ := htiles.split
    exact Token.liesIn_of_span hfront hspan
  · have hcount := htiles.countP_covers hc
    rwa [show Cursor.start.offset = 0 from rfl, Nat.zero_add] at hcount

end TapeCompiler
