import TapeCompiler.Proofs.Grammar

/-! # Parsing is local

Whether a statement is read, and which one, depends on its own tokens alone.  A body is read up to the
close of its loop, and what is behind the close is not looked at.

A block is read greedily: one statement after the other, each from where the one before it ended, for
as long as there is one.  That comes to an end because every statement takes a token.

* `readBlock_append`, `readStatement_append`: more tokens behind a statement change nothing.
* `parseStatement_of_cons`: the choice between the parsers of a statement, by its first token.
* `parseStatement_local`: more tokens in front of a statement change nothing either.
* `Greedy`: reading statements until one is refused, from any position.
* `greedy_iff`, `parse_of_greedy`: what `parseBlock` and `parse` return is what greedy reading leads
  to.
-/

namespace TapeCompiler

open Lexeme (bare)

/-! ## Tokens behind a statement -/

/-- The next token closes a loop. -/
def AtClose (tokens : List Token) : Prop :=
  ∃ close behind, tokens = close :: behind ∧ close.lexeme = bare .loopClose

theorem AtClose.of_taken {first : Token} {inner : BlockReading} {left : List Token}
    {s : Statement Span} {more : Nat} (h : closeLoop first inner left = .taken s more) :
    AtClose left := by
  obtain ⟨close, behind, hleft, hclose, _⟩ := closeLoop_eq_taken h
  exact ⟨close, behind, hleft, hclose⟩

theorem closeLoop_append {first : Token} {inner : BlockReading} {rest : List Token}
    {s : Statement Span} {more : Nat}
    (h : closeLoop first inner (rest.drop inner.used) = .taken s more) (post : List Token) :
    more ≤ rest.length ∧ closeLoop first inner ((rest ++ post).drop inner.used) = .taken s more := by
  obtain ⟨close, behind, hleft, hclose, rfl, rfl⟩ := closeLoop_eq_taken h
  have hlt : inner.used < rest.length := by
    rw [← List.drop_eq_nil_iff.not.trans Nat.not_le, hleft]
    simp
  refine ⟨hlt, ?_⟩
  rw [List.drop_append_of_le_length (Nat.le_of_lt hlt), hleft, List.cons_append, closeLoop,
    if_pos hclose]

theorem BlockReading.drop_push (b : BlockReading) (s : Statement Span) (n : Nat) (first : Token)
    (rest : List Token) :
    (first :: rest).drop (b.push s (n + 1)).used = (rest.drop n).drop b.used := by
  rw [push, ← List.drop_drop, List.drop_succ_cons]

/-- A block that ends at the close of a loop is read in the same way whatever comes behind. -/
theorem readBlock_append {tokens : List Token} (h : AtClose (tokens.drop (readBlock tokens).used))
    (post : List Token) : readBlock (tokens ++ post) = readBlock tokens := by
  fun_induction readBlock tokens with
  | case1 =>
    obtain ⟨close, behind, hcons, _⟩ := h
    cases hcons
  | case2 first rest s hopening ih =>
    rw [BlockReading.drop_push, List.drop_zero] at h
    rw [List.cons_append, readBlock, hopening]
    simp only [ih h]
  | case3 first rest hopening => rw [List.cons_append, readBlock, hopening]
  | case4 first rest hopening inner reason hrefused ih =>
    -- The block is empty and stops at a token that opens a loop.
    obtain ⟨close, behind, hcons, hclose⟩ := h
    have hfirst := first.opening_spec
    rw [hopening] at hfirst
    cases hcons
    rw [hfirst] at hclose
    cases hclose
  | case5 first rest hopening inner s more htaken ih ih' =>
    -- The body ends at the close of its loop, so it is read again, and then the rest of the block.
    obtain ⟨hmore, hsame⟩ := closeLoop_append htaken post
    have hinner : readBlock (rest ++ post) = inner := ih (.of_taken htaken)
    rw [BlockReading.drop_push] at h
    rw [List.cons_append, readBlock, hopening]
    simp only [hinner, hsame]
    rw [List.drop_append_of_le_length hmore, ih' h]

theorem readStatement_append {first : Token} {rest : List Token} {s : Statement Span} {more : Nat}
    (h : readStatement first rest = .taken s more) (post : List Token) :
    more ≤ rest.length ∧ readStatement first (rest ++ post) = .taken s more := by
  rw [readStatement] at h ⊢
  cases hopening : first.opening with
  | simple statement =>
    rw [hopening] at h
    cases h
    exact ⟨Nat.zero_le _, rfl⟩
  | nothing =>
    rw [hopening] at h
    cases h
  | loop =>
    rw [hopening] at h
    have hinner := readBlock_append (.of_taken h) post
    simp only [hinner]
    exact closeLoop_append h post

/-! ## Tokens around a statement -/

theorem tokensFrom_ofNat (tokens : List Token) (i : Nat) :
    tokensFrom tokens (.ofNat i) = tokens.drop i := rfl

theorem positionAfter_ofNat (i used : Nat) : positionAfter (.ofNat i) used = .ofNat (i + used) := rfl

theorem Number.eq_ofNat_of_index? {n : Number} {i : Nat} (h : n.index? = some i) : n = .ofNat i := by
  cases n with
  | integer k =>
    cases k with
    | ofNat m =>
      cases h
      rfl
    | negSucc m => cases h
  | fraction k m => cases h
  | infinity negative => cases h

theorem exists_ofNat_of_cons {tokens rest : List Token} {pos : Number} {first : Token}
    (h : tokensFrom tokens pos = first :: rest) : ∃ i : Nat, pos = .ofNat i := by
  cases hindex : pos.index? with
  | none =>
    rw [tokensFrom, hindex] at h
    cases h
  | some i => exact ⟨i, Number.eq_ofNat_of_index? hindex⟩

theorem expect_of_nil {tokens : List Token} {pos : Number} (h : tokensFrom tokens pos = [])
    (kind : Kind) : Parser.expect kind tokens pos = .failure (.recoverable .endOfInput) := by
  simp only [Parser.expect, h]
  rfl

theorem expect_of_cons {tokens rest : List Token} {pos : Number} {first : Token}
    (h : tokensFrom tokens pos = first :: rest) (command : Bare) :
    Parser.expect (.bare command) tokens pos =
      if first.lexeme = bare command then .success first (positionAfter pos 1)
      else .failure (.recoverable (.unexpectedToken first)) := by
  have hkind : first.kind = .bare command ↔ first.lexeme = bare command := by
    rw [Token.kind]
    cases first.lexeme <;> simp [Lexeme.kind]
  simp only [Parser.expect, h, hkind]
  rfl

/-- A loop is parsed by expecting its brackets around a block. -/
theorem loopStatement_of_open {tokens rest : List Token} {i : Nat} {first : Token}
    (h : tokensFrom tokens (.ofNat i) = first :: rest) (hfirst : first.lexeme = bare .loopOpen) :
    loopStatement tokens (.ofNat i) =
      match closeLoop first (readBlock rest) (rest.drop (readBlock rest).used) with
      | .taken s more => .success s (positionAfter (.ofNat i) (more + 1))
      | .refused reason => .failure reason := by
  have hbody : tokensFrom tokens (.ofNat (i + 1)) = rest := by
    rw [tokensFrom_ofNat] at h ⊢
    rw [← List.drop_drop, h, List.drop_succ_cons, List.drop_zero]
  have hbehind : tokensFrom tokens (.ofNat (i + 1 + (readBlock rest).used)) =
      rest.drop (readBlock rest).used := by
    rw [tokensFrom_ofNat] at hbody ⊢
    rw [← List.drop_drop, hbody]
  rw [loopStatement, expect_of_cons h, if_pos hfirst]
  simp only [positionAfter_ofNat, parseBlock, hbody, hbehind]
  cases hleft : rest.drop (readBlock rest).used with
  | nil =>
    rw [expect_of_nil (hbehind.trans hleft)]
    rfl
  | cons close behind =>
    rw [expect_of_cons (hbehind.trans hleft), closeLoop]
    by_cases hclose : close.lexeme = bare .loopClose
    · have hpos : i + 1 + (readBlock rest).used + 1 = i + ((readBlock rest).used + 1 + 1) := by omega
      simp only [if_pos hclose, positionAfter_ofNat, hpos]
    · simp [if_neg hclose]

theorem parseStatement_of_simple {tokens : List Token} {pos next : Number} {s : Statement Span}
    (h : simpleStatement tokens pos = .success s next) :
    parseStatement tokens pos = .success s next := by
  simp only [parseStatement, Parser.alt, Parser.altAfter, h]

/-- What is no simple statement has to be a loop. -/
theorem parseStatement_of_recoverable {tokens : List Token} {pos : Number} {error : ParseError}
    (h : simpleStatement tokens pos = .failure (.recoverable error)) :
    parseStatement tokens pos = loopStatement tokens pos := by
  simp only [parseStatement, Parser.alt, Parser.altAfter, h]
  cases hloop : loopStatement tokens pos with
  | success s next => simp [ParseFailure.recoverable]
  | failure reason => simp [ParseFailure.recoverable]

theorem parseStatement_of_nil {tokens : List Token} {pos : Number} (h : tokensFrom tokens pos = []) :
    parseStatement tokens pos = .failure (.recoverable .endOfInput) := by
  have hsimple : simpleStatement tokens pos = .failure (.recoverable .endOfInput) := by
    simp only [simpleStatement, h, ParseFailure.atHead]
  rw [parseStatement_of_recoverable hsimple, loopStatement, expect_of_nil h]

/-- Which of the two parsers accepts, and how it ends, is read off the first token. -/
theorem parseStatement_of_cons {tokens rest : List Token} {pos : Number} {first : Token}
    (h : tokensFrom tokens pos = first :: rest) :
    parseStatement tokens pos =
      match readStatement first rest with
      | .taken s more => .success s (positionAfter pos (more + 1))
      | .refused reason => .failure reason := by
  have hspec := first.opening_spec
  cases hopening : first.opening with
  | simple s =>
    have hsimple : simpleStatement tokens pos = .success s (positionAfter pos 1) := by
      simp only [simpleStatement, h, hopening]
    simp only [parseStatement_of_simple hsimple, readStatement, hopening]
  | nothing =>
    rw [hopening] at hspec
    have hsimple : simpleStatement tokens pos = .failure (.recoverable (.unexpectedToken first)) := by
      simp only [simpleStatement, h, hopening, ParseFailure.atHead]
    have hopen : first.lexeme ≠ bare .loopOpen := by simp [hspec]
    simp only [parseStatement_of_recoverable hsimple, loopStatement, expect_of_cons h, if_neg hopen,
      readStatement, hopening]
  | loop =>
    rw [hopening] at hspec
    have hsimple : simpleStatement tokens pos = .failure (.recoverable (.unexpectedToken first)) := by
      simp only [simpleStatement, h, hopening, ParseFailure.atHead]
    obtain ⟨i, rfl⟩ := exists_ofNat_of_cons h
    rw [parseStatement_of_recoverable hsimple, loopStatement_of_open h hspec]
    simp only [readStatement, hopening]

theorem parseStatement_eq_success {tokens : List Token} {pos next : Number} {s : Statement Span}
    (h : parseStatement tokens pos = .success s next) :
    ∃ first rest more, tokensFrom tokens pos = first :: rest ∧
      readStatement first rest = .taken s more ∧ next = positionAfter pos (more + 1) := by
  cases htokens : tokensFrom tokens pos with
  | nil =>
    rw [parseStatement_of_nil htokens] at h
    cases h
  | cons first rest =>
    rw [parseStatement_of_cons htokens] at h
    cases hread : readStatement first rest with
    | taken s' more =>
      rw [hread] at h
      cases h
      exact ⟨first, rest, more, rfl, hread, rfl⟩
    | refused reason =>
      rw [hread] at h
      cases h

/-- A statement takes at least one token and none that is not there, and it is parsed again where its
tokens stand among others. -/
theorem parseStatement_local {tokens : List Token} {pos : Nat} {s : Statement Span} {next : Number}
    (h : parseStatement tokens (.ofNat pos) = .success s next) (pre post : List Token) :
    ∃ pos' : Nat, next = .ofNat pos' ∧ pos < pos' ∧ pos' ≤ tokens.length ∧
      parseStatement (pre ++ tokens ++ post) (.ofNat (pre.length + pos)) =
        .success s (.ofNat (pre.length + pos')) := by
  obtain ⟨first, rest, more, htokens, hread, rfl⟩ := parseStatement_eq_success h
  rw [tokensFrom_ofNat] at htokens
  have hlength : tokens.length = pos + (rest.length + 1) := by
    have hdrop := congrArg List.length htokens
    rw [List.length_drop, List.length_cons] at hdrop
    omega
  obtain ⟨hmore, hsame⟩ := readStatement_append hread post
  -- From the moved position the same tokens come next, and then those of `post`.
  have hmoved : tokensFrom (pre ++ tokens ++ post) (.ofNat (pre.length + pos)) =
      first :: (rest ++ post) := by
    rw [tokensFrom_ofNat, List.append_assoc, List.drop_length_add_append,
      List.drop_append_of_le_length (by omega), htokens, List.cons_append]
  refine ⟨pos + (more + 1), rfl, by omega, by omega, ?_⟩
  rw [parseStatement_of_cons hmoved, hsame]
  simp only [positionAfter_ofNat, Nat.add_assoc]

/-! ## Blocks -/

/-- Reading statements from a position on, for as long as there is one: the statements, the position
that is reached, and why no statement starts there. -/
inductive Greedy (tokens : List Token) :
    Number → List (Statement Span) → Number → ParseFailure → Prop where
  | stop {pos : Number} {reason : ParseFailure} :
      parseStatement tokens pos = .failure reason → Greedy tokens pos [] pos reason
  | next {pos next last : Number} {s : Statement Span} {ss : List (Statement Span)}
      {reason : ParseFailure} :
      parseStatement tokens pos = .success s next → Greedy tokens next ss last reason →
      Greedy tokens pos (s :: ss) last reason

theorem Greedy.parseStatement_last {tokens : List Token} {pos last : Number}
    {ss : List (Statement Span)} {reason : ParseFailure} (h : Greedy tokens pos ss last reason) :
    parseStatement tokens last = .failure reason := by
  induction h with
  | stop hstop => exact hstop
  | next _ _ ih => exact ih

theorem Greedy.unique {tokens : List Token} {pos last last' : Number}
    {ss ss' : List (Statement Span)} {reason reason' : ParseFailure}
    (h : Greedy tokens pos ss last reason) (h' : Greedy tokens pos ss' last' reason') :
    ss = ss' ∧ last = last' ∧ reason = reason' := by
  induction h generalizing ss' with
  | stop hstop =>
    cases h' with
    | stop hstop' =>
      rw [hstop] at hstop'
      cases hstop'
      exact ⟨rfl, rfl, rfl⟩
    | next hnext' _ =>
      rw [hstop] at hnext'
      cases hnext'
  | next hnext _ ih =>
    cases h' with
    | stop hstop' =>
      rw [hnext] at hstop'
      cases hstop'
    | next hnext' hrest' =>
      rw [hnext] at hnext'
      cases hnext'
      obtain ⟨rfl, rfl, rfl⟩ := ih hrest'
      exact ⟨rfl, rfl, rfl⟩

theorem greedy_readBlock (tokens left : List Token) (i : Nat) (h : tokens.drop i = left) :
    Greedy tokens (.ofNat i) (readBlock left).statements (.ofNat (i + (readBlock left).used))
      (readBlock left).stop := by
  match left with
  | [] =>
    rw [readBlock]
    exact .stop (parseStatement_of_nil h)
  | first :: rest =>
    have hparse : parseStatement tokens (.ofNat i) = _ := parseStatement_of_cons h
    rw [readBlock_cons]
    cases hread : readStatement first rest with
    | refused reason =>
      rw [hread] at hparse
      exact .stop hparse
    | taken s more =>
      -- The statement has taken `first` and `more` of the rest, and the block goes on behind them.
      have hbehind : tokens.drop (i + (more + 1)) = rest.drop more := by
        rw [← List.drop_drop, h, List.drop_succ_cons]
      have hrest := greedy_readBlock tokens (rest.drop more) (i + (more + 1)) hbehind
      rw [hread] at hparse
      rw [Nat.add_assoc] at hrest
      exact .next hparse hrest
termination_by left.length
decreasing_by
  simp only [List.length_drop, List.length_cons]
  omega

theorem greedy_parseBlock (tokens : List Token) (start : Number) :
    Greedy tokens start (parseBlock tokens start).statements (parseBlock tokens start).pos
      (parseBlock tokens start).stop := by
  cases hindex : start.index? with
  | some i =>
    rw [Number.eq_ofNat_of_index? hindex]
    exact greedy_readBlock tokens _ i rfl
  | none =>
    -- There is no token at such a position, and none to go past.
    have htokens : tokensFrom tokens start = [] := by simp [tokensFrom, hindex]
    have hstart : positionAfter start 0 = start := by simp [positionAfter, hindex]
    simp only [parseBlock, htokens, readBlock, BlockReading.stopped, hstart]
    exact .stop (parseStatement_of_nil htokens)

theorem greedy_iff {tokens : List Token} {start last : Number} {ss : List (Statement Span)}
    {reason : ParseFailure} :
    Greedy tokens start ss last reason ↔
      parseBlock tokens start = ⟨ss, blockSpan? ss, last, reason⟩ := by
  constructor
  · intro h
    obtain ⟨hss, hlast, hreason⟩ := (greedy_parseBlock tokens start).unique h
    rw [← hss, ← hlast, ← hreason]
    rfl
  · intro h
    have hgreedy := greedy_parseBlock tokens start
    rwa [h] at hgreedy

/-- Parsing a whole token list is reading statements greedily from its start, up to its end. -/
theorem parse_of_greedy {tokens : List Token} {ss : List (Statement Span)} {n : Nat}
    {reason : ParseFailure} (h : Greedy tokens (.ofNat 0) ss (.ofNat n) reason) :
    parse tokens = if n < tokens.length then .error reason.error else .ok ss := by
  obtain ⟨hss, hlast, hreason⟩ := (greedy_readBlock tokens tokens 0 rfl).unique h
  have hused : (readBlock tokens).used = n := by
    simpa using congrArg Number.index? hlast
  simp only [parse, hss, hused, hreason]

theorem closeLoop_eq_refused {first : Token} {inner : BlockReading} {left : List Token}
    {reason : ParseFailure} (h : closeLoop first inner left = .refused reason) :
    reason = .recoverable .endOfInput ∨ reason = inner.stop := by
  cases left with
  | nil =>
    cases h
    exact .inl rfl
  | cons close behind =>
    rw [closeLoop] at h
    split at h
    · cases h
    · cases h
      exact .inr rfl

/-- No failure of a statement is fatal, however deep the loop that it comes from. -/
theorem fatal_readBlock (tokens : List Token) : (readBlock tokens).stop.fatal = false := by
  fun_induction readBlock tokens with
  | case1 => rfl
  | case2 first rest s hopening ih => exact ih
  | case3 first rest hopening => rfl
  | case4 first rest hopening inner reason hrefused ih =>
    rcases closeLoop_eq_refused hrefused with rfl | rfl
    · rfl
    · exact ih
  | case5 first rest hopening inner s more htaken ih ih' => exact ih'

/-- Parsing is local and goes forward.  A statement that is parsed takes one token or more, and it is
parsed in the same way where its tokens stand among others.  From every start, be it a position of a
token or not, a block is what reading statements greedily comes to: it never fails, what stops it is
recoverable, and it is what the next statement fails with. -/
theorem parsing_is_local :
    (∀ (pre tokens post : List Token) (pos : Nat) (s : Statement Span) (next : Number),
      parseStatement tokens (.ofNat pos) = .success s next →
      ∃ pos' : Nat, next = .ofNat pos' ∧ pos < pos' ∧ pos' ≤ tokens.length ∧
        parseStatement (pre ++ tokens ++ post) (.ofNat (pre.length + pos)) =
          .success s (.ofNat (pre.length + pos'))) ∧
      ∀ (tokens : List Token) (start : Number),
        (∀ ss last reason,
          Greedy tokens start ss last reason ↔
            parseBlock tokens start = ⟨ss, blockSpan? ss, last, reason⟩) ∧
        (parseBlock tokens start).stop.fatal = false ∧
        parseStatement tokens (parseBlock tokens start).pos =
          .failure (parseBlock tokens start).stop :=
  ⟨fun pre _ post _ _ _ h => parseStatement_local h pre post, fun tokens start =>
    ⟨fun _ _ _ => greedy_iff, fatal_readBlock _, (greedy_parseBlock tokens start).parseStatement_last⟩⟩

/-- The loop of `+[,]` is parsed again in the middle of `+[,]+[,]+[,]`. -/
theorem parsing_is_local_loop :
    ∃ (tokens : List Token) (s : Statement Span),
      tokens.map Token.lexeme =
        [.counted .increment (.ofNat 1), bare .loopOpen, bare .read, bare .loopClose] ∧
      parseStatement tokens (.ofNat 1) = .success s (.ofNat 4) ∧
      parseStatement (tokens ++ tokens ++ tokens) (.ofNat 5) = .success s (.ofNat 8) := by
  obtain ⟨tokens, s, hlexemes, hparse⟩ : ∃ (tokens : List Token) (s : Statement Span),
      tokens.map Token.lexeme =
        [.counted .increment (.ofNat 1), bare .loopOpen, bare .read, bare .loopClose] ∧
      parseStatement tokens (.ofNat 1) = .success s (.ofNat 4) := by
    let span : Span := ⟨"a", ⟨.ofNat 1, .ofNat 1, .ofNat 0⟩, ⟨.ofNat 1, .ofNat 2, .ofNat 1⟩⟩
    refine ⟨[⟨.counted .increment (.ofNat 1), span⟩, ⟨bare .loopOpen, span⟩, ⟨bare .read, span⟩,
      ⟨bare .loopClose, span⟩], .loop [.read span] (span.join span), rfl, ?_⟩
    rw [parseStatement_of_cons rfl]
    simp [readStatement, readBlock, Token.opening, closeLoop, BlockReading.push,
      BlockReading.stopped, positionAfter]
  have hlength : tokens.length = 4 := by
    have hmap := congrArg List.length hlexemes
    rwa [List.length_map] at hmap
  obtain ⟨pos', hnext, _, _, hmoved⟩ := parsing_is_local.1 tokens tokens tokens 1 s _ hparse
  obtain rfl : 4 = pos' := by simpa using congrArg Number.index? hnext
  rw [hlength] at hmoved
  exact ⟨tokens, s, hlexemes, hparse, hmoved⟩

end TapeCompiler
