import TapeCompiler.Proofs.Layout
import TapeCompiler.Proofs.ParseErrors
import TapeCompiler.Proofs.PositionSoundness

/-! # Spans nest like the text

Every statement of a parsed text notes the span that it was read from.  `Makes` says of which tokens
the statements of a tree were made, each loop between the tokens of its brackets.  A statement is then
made of a stretch of the tokens, and its span leads from the start of the first of them to the end of
the last.  So whatever is known of the order of tokens holds of statements, at any depth.

* `Makes.stretch`: the tokens of a statement anywhere in a tree.
* `Statement.Covers`: what the text of a statement looks like, and what is around it.
* `covers_of_makes`: the text under the span of a statement is its own.
* `spans_nest`: the spans of a parsed text.
-/

namespace TapeCompiler

open Lexeme (bare)
open Statement (parts partsAll lexemesAll)

/-! ## The tokens of a tree -/

/-- The tokens of which statements were made. -/
inductive Makes : List Token → List (Statement Span) → Prop where
  | nil : Makes [] []
  | simple {t : Token} {s : Statement Span} {ts : List Token} {ss : List (Statement Span)} :
      t.opening = .simple s → Makes ts ss → Makes (t :: ts) (s :: ss)
  | loop {first close : Token} {inner ts : List Token} {body ss : List (Statement Span)} :
      first.lexeme = bare .loopOpen → close.lexeme = bare .loopClose → Makes inner body →
      Makes ts ss →
      Makes (first :: (inner ++ close :: ts)) (.loop body (first.span.join close.span) :: ss)

theorem makes_readBlock (tokens : List Token) :
    Makes (tokens.take (readBlock tokens).used) (readBlock tokens).statements := by
  fun_induction readBlock tokens with
  | case1 => exact .nil
  | case2 first rest s hopening ih =>
    rw [BlockReading.push, Nat.add_comm, List.take_succ_cons]
    exact .simple hopening ih
  | case3 first rest hopening => exact .nil
  | case4 first rest hopening inner reason hclose ih => exact .nil
  | case5 first rest hopening inner s more hclose ih ih' =>
    have hfirst := first.opening_spec
    rw [hopening] at hfirst
    obtain ⟨close, behind, hleft, hlast, rfl, rfl⟩ := closeLoop_eq_taken hclose
    -- The tokens of the body, the closing bracket, and the tokens of the block behind it.
    have hsplit : rest.drop (inner.used + 1) = behind := by
      rw [← List.drop_drop, hleft]
      rfl
    have htake (n : Nat) : (first :: rest).take (inner.used + 1 + 1 + n) =
        first :: (rest.take inner.used ++ close :: (rest.drop (inner.used + 1)).take n) := by
      rw [hsplit, Nat.add_right_comm, List.take_succ_cons, Nat.add_assoc, List.take_add, hleft,
        Nat.add_comm 1, List.take_succ_cons]
    rw [BlockReading.push, htake]
    exact .loop hfirst hlast ih ih'

theorem makes_of_parse {tokens : List Token} {program : List (Statement Span)}
    (h : parse tokens = .ok program) : Makes tokens program := by
  have hmakes := makes_readBlock tokens
  rw [parse] at h
  split at h
  · cases h
  · cases h
    rwa [List.take_of_length_le (by omega)] at hmakes

theorem note_and_parts_of_opening {t : Token} {s : Statement Span} (h : t.opening = .simple s) :
    s.note = t.span ∧ s.parts = [s] := by
  obtain ⟨lexeme, span⟩ := t
  cases lexeme with
  | counted command count =>
    cases h
    exact ⟨rfl, rfl⟩
  | bare command =>
    cases command <;> cases h
    · exact ⟨rfl, rfl⟩
    · exact ⟨rfl, rfl⟩

namespace Makes

variable {ts : List Token} {ss : List (Statement Span)} {s : Statement Span}

theorem lexemes_eq (h : Makes ts ss) : lexemesAll ss = ts.map Token.lexeme := by
  induction h with
  | nil => rfl
  | @simple t s ts ss hopening _ ih =>
    have hs := t.opening_spec
    rw [hopening] at hs
    rw [lexemesAll, hs, ih]
    rfl
  | loop hfirst hclose _ _ ihInner ih =>
    simp [lexemesAll, Statement.lexemes, hfirst, hclose, ihInner, ih]

/-- A statement anywhere in the tree is made of a stretch of the tokens. -/
theorem stretch (h : Makes ts ss) (hs : s ∈ partsAll ss) :
    ∃ before own after, ts = before ++ (own ++ after) ∧ Makes own [s] := by
  induction h with
  | nil => cases hs
  | @simple t s' ts ss hopening _ ih =>
    rw [partsAll, (note_and_parts_of_opening hopening).2, List.singleton_append, List.mem_cons] at hs
    rcases hs with rfl | hs
    · exact ⟨[], [t], ts, rfl, .simple hopening .nil⟩
    · obtain ⟨before, own, after, rfl, hown⟩ := ih hs
      exact ⟨t :: before, own, after, rfl, hown⟩
  | @loop first close inner ts body ss hfirst hclose hinner _ ihInner ih =>
    rw [partsAll, parts, List.cons_append, List.mem_cons, List.mem_append] at hs
    rcases hs with rfl | hs | hs
    · exact ⟨[], first :: (inner ++ [close]), ts, by simp, .loop hfirst hclose hinner .nil⟩
    · obtain ⟨before, own, after, rfl, hown⟩ := ihInner hs
      exact ⟨first :: before, own, after ++ close :: ts, by simp, hown⟩
    · obtain ⟨before, own, after, rfl, hown⟩ := ih hs
      exact ⟨first :: (inner ++ close :: before), own, after, by simp, hown⟩

theorem loop_stretch {body : List (Statement Span)} {note : Span} (h : Makes ts ss)
    (hs : .loop body note ∈ partsAll ss) :
    ∃ before first inner close after, ts = before ++ first :: (inner ++ close :: after) ∧
      first.lexeme = bare .loopOpen ∧ close.lexeme = bare .loopClose ∧
      note = first.span.join close.span ∧ Makes inner body := by
  obtain ⟨before, own, after, rfl, hown⟩ := h.stretch hs
  cases hown with
  | @simple t _ _ _ hopening _ =>
    have hlexemes := t.opening_spec
    simp [hopening, Statement.lexemes] at hlexemes
  | @loop first close inner _ _ _ hfirst hclose hinner hnil =>
    cases hnil
    exact ⟨before, first, inner, close, after, by simp, hfirst, hclose, rfl, hinner⟩

/-- A span leads from one token of the statement to another. -/
theorem exists_join (h : Makes ts ss) (hs : s ∈ partsAll ss) :
    ∃ t ∈ ts, ∃ u ∈ ts, s.note = t.span.join u.span := by
  obtain ⟨before, own, after, rfl, hown⟩ := h.stretch hs
  cases hown with
  | @simple t _ _ _ hopening _ =>
    exact ⟨t, by simp, t, by simp, (note_and_parts_of_opening hopening).1⟩
  | @loop first close _ _ _ _ _ _ _ _ => exact ⟨first, by simp, close, by simp, rfl⟩

end Makes

/-! ## Order -/

namespace Statement

/-- The first code unit under the span of a statement. -/
def first (s : Statement Span) : Nat := s.note.start.offset.index?.getD 0

/-- The code unit behind the span of a statement. -/
def behind (s : Statement Span) : Nat := s.note.stop.offset.index?.getD 0

theorem mem_partsAll_of_mem {α : Type} {s : Statement α} {ss : List (Statement α)} (h : s ∈ ss) :
    s ∈ partsAll ss := by
  induction ss with
  | nil => cases h
  | cons t ss ih =>
    rw [partsAll, List.mem_append]
    rcases List.mem_cons.1 h with rfl | h
    · exact .inl (by cases s <;> simp [parts])
    · exact .inr (ih h)

end Statement

namespace Makes

variable {ts us : List Token} {ss rest : List (Statement Span)} {s s' : Statement Span}

/-- Statements are in the order of their tokens. -/
theorem behind_le_first (h : Makes ts ss) (h' : Makes us rest) (hs : s ∈ partsAll ss)
    (hs' : s' ∈ partsAll rest) (horder : ∀ t ∈ ts, ∀ u ∈ us, t.behind ≤ u.first) :
    s.behind ≤ s'.first := by
  obtain ⟨_, _, t, ht, hnote⟩ := h.exists_join hs
  obtain ⟨u, hu, _, _, hnote'⟩ := h'.exists_join hs'
  rw [Statement.behind, Statement.first, hnote, hnote']
  exact horder t ht u hu

theorem pairwise (h : Makes ts ss) (hts : ts.Pairwise fun t u => t.behind ≤ u.first) :
    ss.Pairwise fun s s' => s.behind ≤ s'.first := by
  induction h with
  | nil => exact .nil
  | @simple t s ts ss hopening hrest ih =>
    obtain ⟨hfirst, hts⟩ := List.pairwise_cons.1 hts
    refine List.pairwise_cons.2 ⟨fun s' hs' => ?_, ih hts⟩
    refine behind_le_first (.simple hopening .nil) hrest (Statement.mem_partsAll_of_mem (by simp))
      (Statement.mem_partsAll_of_mem hs') ?_
    intro u hu
    rw [List.mem_singleton.1 hu]
    exact hfirst
  | @loop first close inner ts body ss hfirst hclose hinner hrest _ ih =>
    have hown : first :: (inner ++ close :: ts) = (first :: (inner ++ [close])) ++ ts := by simp
    rw [hown, List.pairwise_append] at hts
    obtain ⟨_, hts, horder⟩ := hts
    refine List.pairwise_cons.2 ⟨fun s' hs' => ?_, ih hts⟩
    exact behind_le_first (.loop hfirst hclose hinner .nil) hrest
      (Statement.mem_partsAll_of_mem (by simp)) (Statement.mem_partsAll_of_mem hs') horder

/-- A block of the tree is made of some of the tokens, in their order. -/
theorem exists_sublist {block : List (Statement Span)} (h : Makes ts ss)
    (hblock : block = ss ∨ ∃ note, .loop block note ∈ partsAll ss) :
    ∃ us, us.Sublist ts ∧ Makes us block := by
  rcases hblock with rfl | ⟨note, hloop⟩
  · exact ⟨ts, .refl ts, h⟩
  · obtain ⟨before, first, inner, close, after, rfl, _, _, _, hinner⟩ := h.loop_stretch hloop
    refine ⟨inner, ?_, hinner⟩
    exact .trans (.cons first (List.sublist_append_left inner _)) (List.sublist_append_right before _)

/-- What is inside a loop comes after its first token and before its last. -/
theorem strictly_inside {body : List (Statement Span)} {note : Span} (h : Makes ts ss)
    (hts : ts.Pairwise fun t u => t.behind ≤ u.first) (hne : ∀ t ∈ ts, t.first < t.behind)
    (hloop : .loop body note ∈ partsAll ss) (hs : s ∈ partsAll body) :
    (Statement.loop body note).first < s.first ∧ s.behind < (Statement.loop body note).behind := by
  obtain ⟨before, first, inner, close, after, rfl, _, _, rfl, hinner⟩ := h.loop_stretch hloop
  obtain ⟨t, ht, u, hu, hnote⟩ := hinner.exists_join hs
  obtain ⟨_, hown, _⟩ := List.pairwise_append.1 hts
  obtain ⟨hfirst, hown⟩ := List.pairwise_cons.1 hown
  obtain ⟨_, _, hlast⟩ := List.pairwise_append.1 hown
  have hopening := hne first (by simp)
  have hclosing := hne close (by simp)
  have hbefore := hfirst t (by simp [ht])
  have hbehind := hlast u hu close List.mem_cons_self
  constructor
  · calc (Statement.loop body (first.span.join close.span)).first
      _ < first.behind := hopening
      _ ≤ t.first := hbefore
      _ = s.first := by rw [Statement.first, hnote]; rfl
  · calc s.behind
      _ = u.behind := by rw [Statement.behind, hnote]; rfl
      _ ≤ close.first := hbehind
      _ < close.behind := hclosing

end Makes

/-! ## The text under a span -/

/-- The text of a statement is `own`: a run that goes on at neither end, a single character, or what
stands between an opening bracket and the closing one that matches it. -/
def Statement.Covers (before own after : List Char) : Statement Span → Prop
  | .counted command count _ =>
    own ≠ [] ∧ own = List.replicate own.length command.char ∧ count = .ofNat own.length ∧
      before.getLast? ≠ some command.char ∧ after.head? ≠ some command.char
  | .read _ => own = [',']
  | .write _ => own = ['.']
  | .loop _ _ => ∃ inner, own = '[' :: (inner ++ [']']) ∧
      FirstUnmatched '[' ']' (inner ++ ']' :: after) inner.length

theorem covers_of_opening {t : Token} {s : Statement Span} {before own after : List Char}
    (h : t.opening = .simple s) (hown : Written t.lexeme own)
    (hleft : ∀ c ∈ before.getLast?, ¬t.lexeme.Grows c)
    (hright : ∀ c ∈ after.head?, ¬t.lexeme.Grows c) : s.Covers before own after := by
  obtain ⟨lexeme, span⟩ := t
  cases hown with
  | @counted command n hpos =>
    cases h
    refine ⟨(Written.counted command hpos).ne_nil, by simp, by simp, ?_, ?_⟩
    · exact fun hlast => hleft _ hlast rfl
    · exact fun hhead => hright _ hhead rfl
  | bare command =>
    cases command <;> cases h
    · rfl
    · rfl

/-- The text under the span of a statement is its own. -/
theorem covers_of_makes {file : String} {text : List Char} {ts : List Token}
    {ss : List (Statement Span)} {s : Statement Span} (htiles : Tiles file .start text ts)
    (h : Makes ts ss) (hs : s ∈ partsAll ss) :
    ∃ before own after, text = before ++ (own ++ after) ∧ s.note = .ofText file before own after ∧
      s.Covers before own after := by
  obtain ⟨_, tokens, _, rfl, hown⟩ := h.stretch hs
  cases hown with
  | @simple t _ _ _ hopening hnil =>
    cases hnil
    obtain ⟨before, own, after, rfl, _, hwritten, hspan, hleft, hright, _⟩ := htiles.cut
    refine ⟨before, own, after, rfl, ?_, covers_of_opening hopening hwritten hleft hright⟩
    rw [(note_and_parts_of_opening hopening).1, hspan, ← Cursor.past_append]
    exact Span.between_eq_ofText file before own after
  | @loop first close inner _ body _ hfirst hclose hinner hnil =>
    cases hnil
    rw [List.cons_append, List.append_assoc] at htiles
    obtain ⟨before, front, rest, rfl, _, hfront, hstart, _, _, hrest⟩ := htiles.cut
    obtain ⟨inside, front', after, rfl, hinside, hfront', hstop, _⟩ := hrest.cut
    rw [hfirst] at hfront
    rw [hclose] at hfront'
    cases hfront
    cases hfront'
    have hbalanced := Statement.lexemesAll_balanced body
    rw [hinner.lexemes_eq] at hbalanced
    refine ⟨before, '[' :: (inside ++ [']']), after, by simp [Bare.char], ?_, inside, rfl,
      hinside.firstUnmatched hbalanced after⟩
    rw [← Span.between_eq_ofText]
    simp only [Statement.note, hstart, hstop, ← Cursor.past_append]
    simp [Span.join, Span.between, Cursor.endOf, Cursor.past, Bare.char]

/-! ## Parsed texts -/

theorem Tiles.file_and_extent {file : String} {text : List Char} {ts : List Token} {t : Token}
    (h : Tiles file .start text ts) (ht : t ∈ ts) : t.span.file = file ∧ t.first < t.behind := by
  obtain ⟨us, vs, rfl⟩ := List.append_of_mem ht
  obtain ⟨j, k, hjk, _, hspan⟩ := h.span_counted
  refine ⟨by rw [hspan], ?_⟩
  simpa [Token.first, Token.behind, hspan, Position.counted] using hjk

theorem blockSpan?_eq_none_iff (block : List (Statement Span)) :
    blockSpan? block = none ↔ block = [] := by
  cases block with
  | nil => simp [blockSpan?]
  | cons s rest => simp [blockSpan?, List.getLast?_cons]

/-- The spans of a parsed text nest like the text.  A statement at any depth covers its own text: its
whole run, its character, or its brackets and what is between them.  The statements of a block come
one behind the other; the block has a span unless it is empty, from the first statement to the last.
What is inside a loop lies strictly between its brackets. -/
theorem spans_nest {file : String} {text : List Char} {program : List (Statement Span)}
    (h : parse (lex file text) = .ok program) :
    (∀ s ∈ partsAll program, ∃ before own after, text = before ++ (own ++ after) ∧
        s.note = .ofText file before own after ∧ s.Covers before own after) ∧
      (∀ block, (block = program ∨ ∃ note, .loop block note ∈ partsAll program) →
        (block.Pairwise fun s t => s.behind ≤ t.first) ∧
        (blockSpan? block = none ↔ block = []) ∧
        ∀ first last, block.head? = some first → block.getLast? = some last →
          blockSpan? block = some ⟨file, first.note.start, last.note.stop⟩) ∧
      ∀ body note, .loop body note ∈ partsAll program → ∀ s ∈ partsAll body,
        (Statement.loop body note).first < s.first ∧ s.behind < (Statement.loop body note).behind := by
  have htiles := tiles_lex file text
  have hmakes := makes_of_parse h
  have horder := htiles.pairwise
  refine ⟨fun s => covers_of_makes htiles hmakes, fun block hblock => ?_, fun body note hloop s => ?_⟩
  · obtain ⟨us, hsub, hblock⟩ := hmakes.exists_sublist hblock
    refine ⟨hblock.pairwise (horder.sublist hsub), blockSpan?_eq_none_iff block, ?_⟩
    intro first last hfirst hlast
    obtain ⟨t, ht, _, _, hnote⟩ :=
      hblock.exists_join (Statement.mem_partsAll_of_mem (List.mem_of_head? hfirst))
    have hfile : first.note.file = file := by
      rw [hnote]
      exact (htiles.file_and_extent (hsub.subset ht)).1
    rw [blockSpan?, hfirst, hlast, ← hfile]
    rfl
  · exact hmakes.strictly_inside horder (fun t ht => (htiles.file_and_extent ht).2) hloop

/-- A loop inside a loop, behind a character of two code units. -/
theorem spans_nest_twice :
    ∃ body : List (Statement Span),
      parse (lex "twice" "😀[>[-]]".toList) =
        .ok [.loop body (.ofText "twice" "😀".toList "[>[-]]".toList [])] ∧
      body = [.counted .moveRight (.ofNat 1) (.ofText "twice" "😀[".toList ['>'] "[-]]".toList),
        .loop [.counted .decrement (.ofNat 1) (.ofText "twice" "😀[>[".toList ['-'] "]]".toList)]
          (.ofText "twice" "😀[>".toList "[-]".toList [']'])] ∧
      (body.Pairwise fun s t => s.behind ≤ t.first) ∧ ∀ s ∈ partsAll body, 2 < s.first ∧ s.behind < 8 := by
  have htree (a b c d e f : Span) :
      parse [⟨bare .loopOpen, a⟩, ⟨.counted .moveRight (.ofNat 1), b⟩, ⟨bare .loopOpen, c⟩,
          ⟨.counted .decrement (.ofNat 1), d⟩, ⟨bare .loopClose, e⟩, ⟨bare .loopClose, f⟩] =
        .ok [.loop [.counted .moveRight (.ofNat 1) b,
          .loop [.counted .decrement (.ofNat 1) d] (c.join e)] (a.join f)] := by
    simp [parse, readBlock, Token.opening, closeLoop, BlockReading.push, BlockReading.stopped]
  have htokens : lex "twice" "😀[>[-]]".toList =
      [⟨bare .loopOpen, .ofText "twice" "😀".toList ['['] ">[-]]".toList⟩,
        ⟨.counted .moveRight (.ofNat 1), .ofText "twice" "😀[".toList ['>'] "[-]]".toList⟩,
        ⟨bare .loopOpen, .ofText "twice" "😀[>".toList ['['] "-]]".toList⟩,
        ⟨.counted .decrement (.ofNat 1), .ofText "twice" "😀[>[".toList ['-'] "]]".toList⟩,
        ⟨bare .loopClose, .ofText "twice" "😀[>[-".toList [']'] "]".toList⟩,
        ⟨bare .loopClose, .ofText "twice" "😀[>[-]".toList [']'] []⟩] := by
    decide
  have hparse : parse (lex "twice" "😀[>[-]]".toList) = .ok [.loop
      [.counted .moveRight (.ofNat 1) (.ofText "twice" "😀[".toList ['>'] "[-]]".toList),
        .loop [.counted .decrement (.ofNat 1) (.ofText "twice" "😀[>[".toList ['-'] "]]".toList)]
          (.ofText "twice" "😀[>".toList "[-]".toList [']'])]
      (.ofText "twice" "😀".toList "[>[-]]".toList [])] := by
    rw [htokens]
    exact htree _ _ _ _ _ _
  have hself (s : Statement Span) : s ∈ partsAll [s] :=
    Statement.mem_partsAll_of_mem (List.mem_singleton_self s)
  obtain ⟨_, hblocks, hinside⟩ := spans_nest hparse
  exact ⟨_, hparse, rfl, (hblocks _ (.inr ⟨_, hself _⟩)).1, hinside _ _ (hself _)⟩

end TapeCompiler
