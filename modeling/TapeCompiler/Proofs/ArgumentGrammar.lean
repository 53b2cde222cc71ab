import Mathlib.Logic.Basic
import TapeCompiler.CommandLine.Arguments

/-! # The grammar of the arguments

The arguments are a sequence of settings and then the source file, or settings and then a request
for help or for the version, whatever stands behind that.  A setting is one argument or two, so what
an argument means depends on all that stand before it: behind `-o`, `--help` is the name of a file.

* `Item`: a setting as it is written, with a value that it takes.
* `settingsOf`: what some items set, the last of a kind winning.
* `Finishes`: what may follow the settings, and what is then asked for.
* `read_items`, `exists_items`: reading passes over items, and what is read without an error consists
  of items and such an ending.
* `parseArguments_follows_grammar`: so every list of arguments is read as the grammar says.
-/

namespace TapeCompiler.CommandLine

/-! ## Settings as they are written -/

/-- Digits, and at least one of them. -/
def IsNumeral (value : String) : Prop := value ≠ "" ∧ ∀ c ∈ value.toList, c.isDigit

instance (value : String) : Decidable (IsNumeral value) :=
  decidable_of_iff (value ≠ "" ∧ value.toList.all Char.isDigit) (by simp [IsNumeral])

/-- The values that a setting takes. -/
def Flag.Takes : Flag → String → Prop
  | .output, value => value ≠ ""
  | .emit, value => value ∈ ["qbe", "ast", "tokens"]
  | .tapeCells, value => IsNumeral value
  | .stride, value => IsNumeral value

/-- The ways to give a setting a value. -/
def Flag.spellings (value : String) : Flag → List (List String)
  | .output => [["--output", value], ["-o", value], ["--output=" ++ value]]
  | .emit => [["--emit", value], ["-e", value], ["--emit=" ++ value]]
  | .tapeCells => [["--tape-cells", value], ["--tape-cells=" ++ value]]
  | .stride => [["--stride", value], ["--stride=" ++ value]]

/-- A setting as it is written. -/
structure Item where
  flag : Flag
  value : String
  words : List String
  takes : flag.Takes value
  spelled : words ∈ flag.spellings value

/-- The value of the last item for a flag. -/
def lastValue? (flag : Flag) (items : List Item) : Option String :=
  (items.reverse.find? fun item => item.flag = flag).map Item.value

/-- The number that a numeral stands for, rounded to one that can be kept. -/
def numeralValue (value : String) : Number := .round (naturalOf value.toList)

/-- What some items set. -/
def settingsOf (items : List Item) : Settings where
  output := lastValue? .output items
  emit := ((lastValue? .emit items).bind ArtifactKind.ofName?).getD .qbe
  tapeCells := (lastValue? .tapeCells items).map numeralValue
  stride := (lastValue? .stride items).map numeralValue

/-- The words that ask for help or for the version. -/
def Request.words : Request → List String
  | .help => ["-h", "--help"]
  | .version => ["-V", "--version"]
  | .compile _ _ => []

/-- What may follow the settings, and what is then asked for. -/
inductive Finishes (settings : Settings) : List String → Request → Prop where
  | announce {request : Request} {stop : String} {rest : List String} :
      stop ∈ request.words → Finishes settings (stop :: rest) request
  | compile {entry : String} : entry ≠ "" → entry.toList.head? ≠ some '-' →
      Finishes settings [entry] (.compile entry settings)

/-! ## Names and assignments -/

namespace Flag

theorem ne_empty_of_takes {flag : Flag} {value : String} (h : flag.Takes value) : value ≠ "" := by
  cases flag with
  | output => exact h
  | emit =>
    simp only [Takes, List.mem_cons, List.not_mem_nil, or_false] at h
    rcases h with rfl | rfl | rfl <;> decide
  | tapeCells => exact h.1
  | stride => exact h.1

theorem ofName?_eq_some_iff {flag : Flag} {name : String} :
    ofName? name = some flag ↔ name = flag.long ∨ some name = flag.short? := by
  constructor
  · intro h
    simpa using List.find?_some h
  · rintro (rfl | h)
    · cases flag <;> decide
    · cases flag <;> cases h <;> decide

theorem equals_not_mem_long (flag : Flag) : ∀ c ∈ flag.long.toList, c ≠ '=' := by
  cases flag <;> simp [long]

theorem find?_long (flag : Flag) : (all.find? fun other => flag.long = other.long) = some flag := by
  cases flag <;> decide

theorem ofAssignment?_joined (flag : Flag) (value : String) :
    ofAssignment? (flag.long ++ "=" ++ value) = some (flag, value) := by
  have hchars : (flag.long ++ "=" ++ value).toList = flag.long.toList ++ '=' :: value.toList := by
    simp
  have hname : ∀ c ∈ flag.long.toList, decide (c ≠ '=') := by
    simpa using equals_not_mem_long flag
  simp only [ofAssignment?, hchars, List.dropWhile_append_of_pos hname,
    List.takeWhile_append_of_pos hname]
  simp [find?_long]

theorem ofAssignment?_eq_some_iff {flag : Flag} {argument value : String} :
    ofAssignment? argument = some (flag, value) ↔ argument = flag.long ++ "=" ++ value := by
  refine ⟨fun h => ?_, fun h => h ▸ ofAssignment?_joined flag value⟩
  have hsplit := List.takeWhile_append_dropWhile (p := (decide <| · ≠ '=')) (l := argument.toList)
  have hhead := List.head?_dropWhile_not (decide <| · ≠ '=') argument.toList
  simp only [ofAssignment?] at h
  split at h
  · cases h
  · rename_i c rest hdrop
    rw [hdrop] at hsplit hhead
    obtain ⟨found, hfound, hpair⟩ := Option.map_eq_some_iff.1 h
    cases hpair
    have hname : String.ofList (argument.toList.takeWhile (· ≠ '=')) = flag.long := by
      simpa using List.find?_some hfound
    have hequals : c = '=' := by simpa using hhead
    subst hequals
    apply String.toList_injective
    simpa [← hname] using hsplit.symm

/-- An item is a name of its flag with the value behind it, or both in one argument. -/
theorem mem_spellings_iff {flag : Flag} {value : String} {words : List String} :
    words ∈ flag.spellings value ↔
      (∃ name, ofName? name = some flag ∧ words = [name, value]) ∨
        words = [flag.long ++ "=" ++ value] := by
  simp only [ofName?_eq_some_iff]
  cases flag <;> simp [spellings, long, short?, or_assoc]

theorem ofAssignment?_of_name {flag : Flag} {name : String} (h : ofName? name = some flag) :
    ofAssignment? name = none := by
  rcases ofName?_eq_some_iff.1 h with rfl | h
  · cases flag <;> decide
  · cases flag <;> cases h <;> decide

/-- A request for help or for the version is no setting. -/
theorem of_stop {stop : String} (h : stop ∈ ["-h", "--help", "-V", "--version"]) :
    ofAssignment? stop = none ∧ ofName? stop = none := by
  simp only [List.mem_cons, List.not_mem_nil, or_false] at h
  rcases h with rfl | rfl | rfl | rfl <;> decide

/-- Every setting begins with a dash. -/
theorem of_entry {entry : String} (h : entry.toList.head? ≠ some '-') :
    ofAssignment? entry = none ∧ ofName? entry = none := by
  constructor
  · rw [Option.eq_none_iff_forall_ne_some]
    rintro ⟨flag, value⟩ hsome
    rw [ofAssignment?_eq_some_iff] at hsome
    cases flag <;> simp [hsome, long] at h
  · rw [Option.eq_none_iff_forall_ne_some]
    intro flag hsome
    cases flag <;> rcases ofName?_eq_some_iff.1 hsome with rfl | hshort <;>
      simp_all [long, short?]

end Flag

/-! ## Reading items -/

section Reading

variable {s : Settings} {flag : Flag} {argument value : String}

theorem not_stop (argument : String)
    (h : Flag.ofAssignment? argument ≠ none ∨ Flag.ofName? argument ≠ none) :
    ¬(argument = "-h" ∨ argument = "--help") ∧ ¬(argument = "-V" ∨ argument = "--version") := by
  have hstop : argument ∉ ["-h", "--help", "-V", "--version"] := by
    intro hmem
    obtain ⟨hassignment, hname⟩ := Flag.of_stop hmem
    simp [hassignment, hname] at h
  simpa [and_assoc] using hstop

theorem read_joined (h : Flag.ofAssignment? argument = some (flag, value)) (hvalue : value ≠ "")
    (rest : List String) :
    readArguments s (argument :: rest) = (s.set flag value).bind (readArguments · rest) := by
  obtain ⟨hhelp, hversion⟩ := not_stop argument (.inl (by simp [h]))
  rw [readArguments.eq_def]
  simp only [if_neg hhelp, if_neg hversion, h, if_neg hvalue]
  cases s.set flag value <;> rfl

theorem read_named (h : Flag.ofName? argument = some flag) (hvalue : value ≠ "")
    (rest : List String) :
    readArguments s (argument :: value :: rest) = (s.set flag value).bind (readArguments · rest) := by
  obtain ⟨hhelp, hversion⟩ := not_stop argument (.inr (by simp [h]))
  rw [readArguments.eq_def]
  simp only [if_neg hhelp, if_neg hversion, h, Flag.ofAssignment?_of_name h, if_neg hvalue]
  cases s.set flag value <;> rfl

theorem read_item (item : Item) (rest : List String) :
    readArguments s (item.words ++ rest) =
      (s.set item.flag item.value).bind (readArguments · rest) := by
  have hvalue := Flag.ne_empty_of_takes item.takes
  rcases Flag.mem_spellings_iff.1 item.spelled with ⟨name, hname, hwords⟩ | hwords
  · rw [hwords]
    exact read_named hname hvalue rest
  · rw [hwords]
    exact read_joined (Flag.ofAssignment?_joined item.flag item.value) hvalue rest

end Reading

theorem lastValue?_concat (flag : Flag) (items : List Item) (item : Item) :
    lastValue? flag (items ++ [item]) =
      if item.flag = flag then some item.value else lastValue? flag items := by
  by_cases h : item.flag = flag <;> simp [lastValue?, h]

theorem integerFlag_eq_ok_iff {flag value : String} {n : Number} :
    integerFlag flag value = .ok n ↔ IsNumeral value ∧ n = numeralValue value := by
  have hdigits : (value.toList ≠ [] ∧ value.toList.all Char.isDigit) ↔ IsNumeral value := by
    simp [IsNumeral]
  by_cases h : IsNumeral value
  · have hok : integerFlag flag value = .ok (numeralValue value) := if_pos (hdigits.2 h)
    rw [hok, Except.ok.injEq, eq_comm, and_iff_right h]
  · have herror : integerFlag flag value = .error (.notAnInteger flag value) :=
      if_neg (mt hdigits.1 h)
    simp [herror, h]

/-- The settings that are kept while reading are those of the items read so far. -/
theorem set_settingsOf (done : List Item) (item : Item) :
    (settingsOf done).set item.flag item.value = .ok (settingsOf (done ++ [item])) := by
  obtain ⟨flag, value, words, takes, spelled⟩ := item
  cases flag with
  | output => simp [Settings.set, settingsOf, lastValue?_concat]
  | emit =>
    simp only [Flag.Takes, List.mem_cons, List.not_mem_nil, or_false] at takes
    rcases takes with rfl | rfl | rfl <;>
      simp [Settings.set, settingsOf, lastValue?_concat, ArtifactKind.ofName?]
  | tapeCells =>
    rw [Settings.set, integerFlag_eq_ok_iff.2 ⟨takes, rfl⟩]
    simp [settingsOf, lastValue?_concat, Except.map]
  | stride =>
    rw [Settings.set, integerFlag_eq_ok_iff.2 ⟨takes, rfl⟩]
    simp [settingsOf, lastValue?_concat, Except.map]

theorem eq_name_of_ofName? {name : String} {kind : ArtifactKind}
    (h : ArtifactKind.ofName? name = some kind) : name = kind.name := by
  unfold ArtifactKind.ofName? at h
  split at h
  · cases h; assumption
  · split at h
    · cases h; assumption
    · split at h
      · cases h; assumption
      · cases h

theorem takes_of_set {s s' : Settings} {flag : Flag} {value : String} (hvalue : value ≠ "")
    (h : s.set flag value = .ok s') : flag.Takes value := by
  have hnumeral : ∀ {name : String} {f : Number → Settings},
      (integerFlag name value).map f = .ok s' → IsNumeral value := by
    intro name f hmap
    cases hflag : integerFlag name value with
    | error e => rw [hflag] at hmap; cases hmap
    | ok n => exact (integerFlag_eq_ok_iff.1 hflag).1
  cases flag with
  | output => exact hvalue
  | emit =>
    cases hkind : ArtifactKind.ofName? value with
    | none => simp [Settings.set, hkind] at h
    | some kind =>
      rw [eq_name_of_ofName? hkind]
      cases kind <;> simp [Flag.Takes, ArtifactKind.name]
  | tapeCells => exact hnumeral h
  | stride => exact hnumeral h

/-- Reading passes over items. -/
theorem read_items (done items : List Item) (rest : List String) :
    readArguments (settingsOf done) (items.flatMap Item.words ++ rest) =
      readArguments (settingsOf (done ++ items)) rest := by
  induction items generalizing done with
  | nil => simp
  | cons item items ih =>
    have hitems := ih (done ++ [item])
    rw [List.append_assoc] at hitems
    rw [List.flatMap_cons, List.append_assoc, read_item, set_settingsOf]
    exact hitems

theorem read_finishes {s : Settings} {tail : List String} {request : Request}
    (h : Finishes s tail request) : readArguments s tail = .ok request := by
  cases h with
  | announce hstop =>
    cases request with
    | help =>
      simp only [Request.words, List.mem_cons, List.not_mem_nil, or_false] at hstop
      rcases hstop with rfl | rfl <;> rfl
    | version =>
      simp only [Request.words, List.mem_cons, List.not_mem_nil, or_false] at hstop
      rcases hstop with rfl | rfl <;> rfl
    | compile entry settings => cases hstop
  | @compile entry hne hdash =>
    obtain ⟨hassignment, hname⟩ := Flag.of_entry hdash
    have hhelp : ¬(entry = "-h" ∨ entry = "--help") := by rintro (rfl | rfl) <;> simp at hdash
    have hversion : ¬(entry = "-V" ∨ entry = "--version") := by rintro (rfl | rfl) <;> simp at hdash
    simp [readArguments, hhelp, hversion, hassignment, hname, hdash, hne]

/-- An item in front of items and an ending. -/
theorem exists_items_cons (item : Item) {s' : Settings} {done : List Item} {rest : List String}
    {request : Request} (hset : (settingsOf done).set item.flag item.value = .ok s')
    (h : ∀ done, s' = settingsOf done → ∃ items tail,
      rest = items.flatMap Item.words ++ tail ∧ Finishes (settingsOf (done ++ items)) tail request) :
    ∃ items tail, item.words ++ rest = items.flatMap Item.words ++ tail ∧
      Finishes (settingsOf (done ++ items)) tail request := by
  rw [set_settingsOf] at hset
  obtain ⟨items, tail, rfl, hfinishes⟩ := h _ (Except.ok.inj hset).symm
  refine ⟨item :: items, tail, by simp, ?_⟩
  simpa using hfinishes

/-- What is read without an error is items and an ending. -/
theorem exists_items {s : Settings} {arguments : List String} {request : Request}
    (h : readArguments s arguments = .ok request) (done : List Item) (hs : s = settingsOf done) :
    ∃ items tail, arguments = items.flatMap Item.words ++ tail ∧
      Finishes (settingsOf (done ++ items)) tail request := by
  fun_induction readArguments s arguments generalizing done
  case case2 s stop rest hstop =>
    cases h
    exact ⟨[], _, rfl, .announce (by simpa [Request.words] using hstop)⟩
  case case3 s stop rest _ hstop =>
    cases h
    exact ⟨[], _, rfl, .announce (by simpa [Request.words] using hstop)⟩
  case case6 s argument rest _ _ flag value hassignment hvalue s' hset ih =>
    have takes := takes_of_set hvalue hset
    have spelled : [argument] ∈ flag.spellings value :=
      Flag.mem_spellings_iff.2 (.inr (by rw [Flag.ofAssignment?_eq_some_iff.1 hassignment]))
    exact exists_items_cons ⟨flag, value, _, takes, spelled⟩ (hs ▸ hset) (ih h)
  case case10 s name _ _ flag hname _ value rest hvalue s' hset ih =>
    have takes := takes_of_set hvalue hset
    have spelled : [name, value] ∈ flag.spellings value :=
      Flag.mem_spellings_iff.2 (.inl ⟨name, hname, rfl⟩)
    exact exists_items_cons ⟨flag, value, _, takes, spelled⟩ (hs ▸ hset) (ih h)
  case case13 s entry rest _ _ _ _ hdash hlast =>
    simp only [not_or, ne_eq, not_not] at hlast
    obtain ⟨hne, rfl⟩ := hlast
    cases h
    exact ⟨[], _, rfl, by simpa [hs] using Finishes.compile hne hdash⟩
  all_goals cases h

theorem parseArguments_eq_ok_iff {arguments : List String} {request : Request} :
    parseArguments arguments = .ok request ↔
      ∃ items tail, arguments = items.flatMap Item.words ++ tail ∧
        Finishes (settingsOf items) tail request := by
  constructor
  · intro h
    exact exists_items h [] rfl
  · rintro ⟨items, tail, rfl, hfinishes⟩
    have hread := read_items [] items tail
    rw [List.nil_append] at hread
    exact hread.trans (read_finishes hfinishes)

/-! ## The grammar -/

/-- Items, then the source file. -/
def AsksToCompile (arguments : List String) (items : List Item) (entry : String) : Prop :=
  arguments = items.flatMap Item.words ++ [entry] ∧ entry ≠ "" ∧ entry.toList.head? ≠ some '-'

/-- Items, then one of some words, then anything. -/
def AsksFor (words arguments : List String) : Prop :=
  ∃ (items : List Item) (stop : String) (rest : List String),
    arguments = items.flatMap Item.words ++ stop :: rest ∧ stop ∈ words

theorem AsksFor.mono {words words' arguments : List String} (h : AsksFor words arguments)
    (hsubset : words ⊆ words') : AsksFor words' arguments := by
  obtain ⟨items, stop, rest, hsplit, hstop⟩ := h
  exact ⟨items, stop, rest, hsplit, hsubset hstop⟩

theorem parseArguments_compile_iff {arguments : List String} {entry : String} {settings : Settings} :
    parseArguments arguments = .ok (.compile entry settings) ↔
      ∃ items, AsksToCompile arguments items entry ∧ settings = settingsOf items := by
  rw [parseArguments_eq_ok_iff]
  constructor
  · rintro ⟨items, tail, hsplit, hfinishes⟩
    cases hfinishes with
    | announce hstop => cases hstop
    | compile hne hdash => exact ⟨items, ⟨hsplit, hne, hdash⟩, rfl⟩
  · rintro ⟨items, ⟨hsplit, hne, hdash⟩, rfl⟩
    exact ⟨items, [entry], hsplit, .compile hne hdash⟩

theorem parseArguments_announce_iff {arguments : List String} {request : Request}
    (hrequest : request = .help ∨ request = .version) :
    parseArguments arguments = .ok request ↔ AsksFor request.words arguments := by
  rw [parseArguments_eq_ok_iff]
  constructor
  · rintro ⟨items, tail, hsplit, hfinishes⟩
    cases hfinishes with
    | announce hstop => exact ⟨items, _, _, hsplit, hstop⟩
    | compile => simp at hrequest
  · rintro ⟨items, stop, rest, hsplit, hstop⟩
    exact ⟨items, stop :: rest, hsplit, .announce hstop⟩

/-- The arguments are read as the grammar says.  Items and a source file ask for a compilation with
what the last item of each kind sets; items and a request for help or for the version ask for that;
and all other arguments are refused. -/
theorem parseArguments_follows_grammar (arguments : List String) :
    (∀ entry settings, parseArguments arguments = .ok (.compile entry settings) ↔
        ∃ items, AsksToCompile arguments items entry ∧ settings = settingsOf items) ∧
      (parseArguments arguments = .ok .help ↔ AsksFor ["-h", "--help"] arguments) ∧
      (parseArguments arguments = .ok .version ↔ AsksFor ["-V", "--version"] arguments) ∧
      ((∃ e, parseArguments arguments = .error e) ↔
        (¬∃ items entry, AsksToCompile arguments items entry) ∧
          ¬AsksFor ["-h", "--help", "-V", "--version"] arguments) := by
  have hhelp : parseArguments arguments = .ok .help ↔ AsksFor ["-h", "--help"] arguments :=
    parseArguments_announce_iff (.inl rfl)
  have hversion : parseArguments arguments = .ok .version ↔ AsksFor ["-V", "--version"] arguments :=
    parseArguments_announce_iff (.inr rfl)
  refine ⟨fun entry settings => parseArguments_compile_iff, hhelp, hversion, ?_⟩
  constructor
  · rintro ⟨e, herror⟩
    constructor
    · rintro ⟨items, entry, hasks⟩
      cases herror.symm.trans (parseArguments_compile_iff.2 ⟨items, hasks, rfl⟩)
    · rintro ⟨items, stop, rest, hsplit, hstop⟩
      -- The four words are those of the two requests.
      have hcases : stop ∈ ["-h", "--help"] ∨ stop ∈ ["-V", "--version"] := by
        simpa [or_assoc] using hstop
      rcases hcases with h | h
      · cases herror.symm.trans (hhelp.2 ⟨items, stop, rest, hsplit, h⟩)
      · cases herror.symm.trans (hversion.2 ⟨items, stop, rest, hsplit, h⟩)
  · rintro ⟨hcompile, hstop⟩
    cases hparse : parseArguments arguments with
    | error e => exact ⟨e, rfl⟩
    | ok request =>
      cases request with
      | help => exact absurd ((hhelp.1 hparse).mono (by simp)) hstop
      | version => exact absurd ((hversion.1 hparse).mono (by simp)) hstop
      | compile entry settings =>
        obtain ⟨items, hasks, _⟩ := parseArguments_compile_iff.1 hparse
        exact absurd ⟨items, entry, hasks⟩ hcompile

/-- Behind `-o` a request for help is the name of a file, and the second stride wins. -/
example : parseArguments ["-o", "--help", "--stride=1", "--stride", "08", "x.b"] =
    .ok (.compile "x.b" ⟨some "--help", .qbe, none, some (.integer 8)⟩) := by
  rfl

end TapeCompiler.CommandLine
