import CourseWork.Daemon.Config

/-!
# The last value of a key

The loop of `parse_config` leaves the last value that it was given for a key. That is the value
that the lines of the file carry where each line is tidy: `parse_config_iff`.
-/

namespace CourseWork.Daemon
open CLib

/-! ## The last usable value -/

section LastUsable

variable {α : Type*} {usable : Bytes → Option α} {default : α}

theorem lastUsable_cons (value : Bytes) (values : List Bytes) :
    lastUsable usable default (value :: values) =
      lastUsable usable ((usable value).getD default) values := by
  unfold lastUsable
  cases h : usable value with
  | none => rw [List.filterMap_cons_none h, Option.getD_none]
  | some result =>
    rw [List.filterMap_cons_some h, List.getLast?_cons, Option.getD_some, Option.getD_some]

@[simp] theorem lastUsable_nil : lastUsable usable default [] = default := rfl

@[simp] theorem lastUsable_singleton (value : Bytes) :
    lastUsable usable default [value] = (usable value).getD default :=
  lastUsable_cons value []

theorem lastUsable_append (values values' : List Bytes) :
    lastUsable usable default (values ++ values') =
      lastUsable usable (lastUsable usable default values) values' := by
  induction values generalizing default with
  | nil => rfl
  | cons value values ih => rw [List.cons_append, lastUsable_cons, ih, lastUsable_cons]

end LastUsable

/-! ## The loop -/

/-- The keys. -/
def names : List Bytes :=
  [ascii "file", ascii "socket", ascii "daemonize", ascii "user", ascii "group"]

/-- A text whose first word is a key up to its first `#`: the word, and the words behind it. -/
def Keyed (text key : Bytes) (more : List Bytes) : Prop :=
  tokens isDelimiter (cstr text) = key :: more ∧ cutAt 35 key ∈ names

/-- A line in which a key is the only word. -/
def Valueless (line : Bytes) : Prop := ∃ key, Keyed line key []

/-- The value of a line for a key where the words are found first and a comment is cut off in
each. -/
def given (name line : Bytes) : Option Bytes :=
  match tokens isDelimiter (cstr line) with
  | key :: value :: _ => if cutAt 35 key = name then some (cutAt 35 value) else none
  | _ => none

/-- A configuration after values of each key. -/
def settle (system : System) (config : Config) (values : Bytes → List Bytes) : Config where
  filePath := lastUsable some config.filePath (values (ascii "file"))
  socketPath := lastUsable some config.socketPath (values (ascii "socket"))
  daemonize := lastUsable (fun value => some (isYes value)) config.daemonize
    (values (ascii "daemonize"))
  runAsUid := lastUsable system.getpwnam config.runAsUid (values (ascii "user"))
  runAsGid := lastUsable system.getgrnam config.runAsGid (values (ascii "group"))

section Loop

variable {system : System} {config : Config} {p q : Parsed} {key : Bytes} {value : Option Bytes}

theorem settle_append (values values' : Bytes → List Bytes) :
    settle system config (fun name => values name ++ values' name) =
      settle system (settle system config values) values' := by
  simp only [settle, lastUsable_append]

/-- The values that one line gives. -/
def oneValue (key : Bytes) (value : Option Bytes) (name : Bytes) : List Bytes :=
  if key = name then value.toList else []

theorem settle_oneValue (value : Bytes) : settle system config (oneValue key (some value)) =
    if key = ascii "file" then { config with filePath := value }
    else if key = ascii "socket" then { config with socketPath := value }
    else if key = ascii "daemonize" then { config with daemonize := isYes value }
    else if key = ascii "user" then
      { config with runAsUid := (system.getpwnam value).getD config.runAsUid }
    else if key = ascii "group" then
      { config with runAsGid := (system.getgrnam value).getD config.runAsGid }
    else config := by
  by_cases hkey : key ∈ names
  · simp only [names, List.mem_cons, List.not_mem_nil, or_false] at hkey
    rcases hkey with rfl | rfl | rfl | rfl | rfl <;> simp +decide [settle, oneValue]
  · simp only [names, List.mem_cons, List.not_mem_nil, or_false, not_or] at hkey
    obtain ⟨hfile, hsocket, hdaemonize, huser, hgroup⟩ := hkey
    simp [settle, oneValue, hfile, hsocket, hdaemonize, huser, hgroup]

theorem setKey_of_not_mem (h : key ∉ names) : setKey system key value p = some p := by
  simp only [names, List.mem_cons, List.not_mem_nil, or_false, not_or] at h
  obtain ⟨hfile, hsocket, hdaemonize, huser, hgroup⟩ := h
  rw [setKey, if_neg hfile, if_neg hsocket, if_neg hdaemonize, if_neg huser, if_neg hgroup]

theorem setKey_none (h : key ∈ names) : setKey system key none p = none := by
  simp only [names, List.mem_cons, List.not_mem_nil, or_false] at h
  rcases h with rfl | rfl | rfl | rfl | rfl <;> rfl

/-- What the branch for a key with a value does. -/
theorem setKey_some (system : System) (key value : Bytes) (p : Parsed) :
    ∃ q, setKey system key (some value) p = some q ∧
      q.config = settle system p.config (oneValue key (some value)) := by
  rw [settle_oneValue]
  unfold setKey
  split_ifs with hfile hsocket hdaemonize huser hgroup
  · exact ⟨_, rfl, rfl⟩
  · exact ⟨_, rfl, rfl⟩
  · exact ⟨_, rfl, rfl⟩
  · refine ⟨_, rfl, ?_⟩
    dsimp only
    cases system.getpwnam value <;> rfl
  · refine ⟨_, rfl, ?_⟩
    dsimp only
    cases system.getgrnam value <;> rfl
  · exact ⟨_, rfl, rfl⟩

theorem settle_nil : settle system config (fun _ => []) = config := rfl

theorem settle_congr {values values' : Bytes → List Bytes}
    (h : ∀ name ∈ names, values name = values' name) :
    settle system config values = settle system config values' := by
  simp only [names, List.forall_mem_cons, List.not_mem_nil, false_implies, implies_true,
    and_true] at h
  obtain ⟨hfile, hsocket, hdaemonize, huser, hgroup⟩ := h
  rw [settle, settle, hfile, hsocket, hdaemonize, huser, hgroup]

/-- The first two words of a line. -/
theorem splitLine_eq (line : Bytes) : splitLine line =
    match tokens isDelimiter (cstr line) with
    | [] => none
    | key :: more => if key.head? = some 35 then none
      else some (cutAt 35 key, more.head?.map (cutAt 35)) := by
  unfold splitLine
  rw [tokens_eq (cstr line)]
  cases strtok isDelimiter (cstr line) with
  | none => rfl
  | some found =>
    obtain ⟨key, rest⟩ := found
    dsimp only
    rw [tokens_eq rest]
    cases strtok isDelimiter rest <;> rfl

/-- No key starts with a comment. -/
theorem cutAt_not_mem_names {key : Bytes} (h : key.head? = some 35) : cutAt 35 key ∉ names := by
  cases key with
  | nil => cases h
  | cons c key =>
    obtain rfl : c = 35 := Option.some.inj h
    have hcut : cutAt 35 (35 :: key) = [] := List.takeWhile_cons_of_neg (by decide)
    rw [hcut]
    decide

theorem filterMap_given_cons (name line : Bytes) (lines : List Bytes) :
    (line :: lines).filterMap (given name) =
      (given name line).toList ++ lines.filterMap (given name) := by
  cases h : given name line with
  | none => exact List.filterMap_cons_none h
  | some value => exact List.filterMap_cons_some h

/-- What is read from a line: nothing, a key alone, or a key with a value. -/
inductive Reading (line : Bytes) : Prop
  | skipped : splitLine line = none → ¬Valueless line →
      (∀ name ∈ names, given name line = none) → Reading line
  | alone (key : Bytes) : splitLine line = some (key, none) → (Valueless line ↔ key ∈ names) →
      (∀ name ∈ names, given name line = none) → Reading line
  | pair (key value : Bytes) : splitLine line = some (key, some value) → ¬Valueless line →
      (∀ name ∈ names, (given name line).toList = oneValue key (some value) name) → Reading line

theorem reading (line : Bytes) : Reading line := by
  have hsplit := splitLine_eq line
  cases hwords : tokens isDelimiter (cstr line) with
  | nil =>
    rw [hwords] at hsplit
    refine .skipped hsplit ?_ fun name _ => by rw [given, hwords]
    rintro ⟨key, hkey, -⟩
    cases hwords.symm.trans hkey
  | cons key more =>
    rw [hwords] at hsplit
    dsimp only at hsplit
    have hvalueless : Valueless line ↔ more = [] ∧ cutAt 35 key ∈ names := by
      simp only [Valueless, Keyed, hwords]
      simp
    by_cases hcomment : key.head? = some 35
    · have hname := cutAt_not_mem_names hcomment
      rw [if_pos hcomment] at hsplit
      refine .skipped hsplit (fun h => hname (hvalueless.mp h).2) fun name hmem => ?_
      rw [given, hwords]
      cases more with
      | nil => rfl
      | cons value more =>
        have hother : cutAt 35 key ≠ name := fun heq => hname (heq ▸ hmem)
        exact if_neg hother
    · rw [if_neg hcomment] at hsplit
      cases more with
      | nil =>
        refine .alone (cutAt 35 key) hsplit (hvalueless.trans (and_iff_right rfl)) fun name _ => ?_
        rw [given, hwords]
      | cons value more =>
        refine .pair (cutAt 35 key) (cutAt 35 value) hsplit
          (fun h => List.cons_ne_nil value more (hvalueless.mp h).1) fun name _ => ?_
        rw [given, hwords, oneValue]
        dsimp only
        split <;> rfl

/-- Nothing changes where no key has a value. -/
theorem settle_none {value : Bytes → Option Bytes} (h : ∀ name ∈ names, value name = none) :
    config = settle system config fun name => (value name).toList := by
  have hnil : ∀ name ∈ names, (value name).toList = [] := fun name hname => by
    rw [h name hname, Option.toList_none]
  rw [settle_congr hnil, settle_nil]

/-- What the loop does with one line. -/
theorem parseLines_cons (system : System) (line : Bytes) (p : Parsed) :
    (Valueless line ∧ ∀ lines, parseLines system (line :: lines) p = none) ∨
    ¬Valueless line ∧ ∃ q, (∀ lines, parseLines system (line :: lines) p =
        parseLines system lines q) ∧
      q.config = settle system p.config fun name => (given name line).toList := by
  cases reading line with
  | skipped hsplit hvalued hgiven =>
    refine .inr ⟨hvalued, p, fun lines => ?_, settle_none hgiven⟩
    rw [parseLines, hsplit]
  | alone key hsplit hvalueless hgiven =>
    by_cases hname : key ∈ names
    · refine .inl ⟨hvalueless.mpr hname, fun lines => ?_⟩
      rw [parseLines, hsplit]
      dsimp only
      rw [setKey_none hname, Option.bind_none]
    · refine .inr ⟨fun h => hname (hvalueless.mp h), p, fun lines => ?_, settle_none hgiven⟩
      rw [parseLines, hsplit]
      dsimp only
      rw [setKey_of_not_mem hname, Option.bind_some]
  | pair key value hsplit hvalued hgiven =>
    obtain ⟨q, hset, hconfig⟩ := setKey_some system key value p
    refine .inr ⟨hvalued, q, fun lines => ?_, ?_⟩
    · rw [parseLines, hsplit]
      dsimp only
      rw [hset, Option.bind_some]
    · rw [hconfig, settle_congr hgiven]

/-- The loop ends with the last value of each key, unless a key has no value. -/
theorem parseLines_eq (system : System) : ∀ (lines : List Bytes) (p : Parsed),
    ((∃ line ∈ lines, Valueless line) ∧ parseLines system lines p = none) ∨
    (∀ line ∈ lines, ¬Valueless line) ∧ ∃ q, parseLines system lines p = some q ∧
      q.config = settle system p.config fun name => lines.filterMap (given name)
  | [], p => .inr ⟨List.forall_mem_nil _, p, rfl, rfl⟩
  | line :: lines, p => by
    rcases parseLines_cons system line p with ⟨hline, hnone⟩ | ⟨hline, q, hq, hconfig⟩
    · exact .inl ⟨⟨line, List.mem_cons_self, hline⟩, hnone lines⟩
    · rw [hq lines]
      rcases parseLines_eq system lines q with
        ⟨⟨line', hmem, hline'⟩, hnone⟩ | ⟨hlines, r, hr, hrest⟩
      · exact .inl ⟨⟨line', List.mem_cons_of_mem line hmem, hline'⟩, hnone⟩
      · refine .inr ⟨List.forall_mem_cons.mpr ⟨hline, hlines⟩, r, hr, ?_⟩
        simp only [hrest, hconfig, filterMap_given_cons, settle_append]

end Loop

/-! ## Tidy lines -/

/-- In the first 255 bytes of the line a key has no comment in it and a value behind it. The line
has the key and the value in these bytes, and no later piece starts with a key. -/
structure Tidy (line : Bytes) : Prop where
  valued : ∀ key more, Keyed (line.take 255) key more →
    35 ∉ key ∧ ∃ value rest, more = value :: rest ∧ cutAt 35 value ≠ []
  uncut : ∀ key more, Keyed line key more →
    (tokens isDelimiter (cstr (line.take 255))).take 2 = (key :: more).take 2
  later : ∀ piece ∈ pieces 255 (line.drop 255), ∀ key more, ¬Keyed piece key more

section Tidy

variable {line name : Bytes}

/-- What is asked for of a line that `fgets` does not cut. -/
theorem tidy_iff_of_length_le (hlen : line.length ≤ 255) : Tidy line ↔ ∀ key more,
    Keyed line key more → 35 ∉ key ∧ ∃ value rest, more = value :: rest ∧ cutAt 35 value ≠ [] := by
  have htake : line.take 255 = line := List.take_of_length_le hlen
  constructor
  · intro h key more hkeyed
    exact h.valued key more (by rwa [htake])
  · intro h
    refine ⟨fun key more hkeyed => h key more (by rwa [htake] at hkeyed), ?_, ?_⟩
    · rintro key more ⟨hwords, -⟩
      rw [htake, hwords]
    · rw [List.drop_of_length_le hlen, pieces_nil (by decide)]
      exact List.forall_mem_nil _

/-- A line with one key and one value. -/
theorem tidy_of_words {key value : Bytes} (hlen : line.length ≤ 255)
    (hwords : tokens isDelimiter (cstr line) = [key, value]) (hkey : 35 ∉ key)
    (hvalue : cutAt 35 value ≠ []) : Tidy line := by
  rw [tidy_iff_of_length_le hlen]
  rintro key' more ⟨hwords', -⟩
  obtain ⟨rfl, rfl⟩ := List.cons.inj (hwords.symm.trans hwords')
  exact ⟨hkey, value, [], rfl, hvalue⟩

theorem tidy_nil : Tidy [] := by
  rw [tidy_iff_of_length_le (Nat.zero_le _)]
  rintro key more ⟨hwords, -⟩
  cases hwords

/-- The newline is no part of a word. -/
theorem tokens_cstr_newline (line : Bytes) :
    tokens isDelimiter (cstr (line ++ [10])) = tokens isDelimiter (cstr line) := by
  by_cases hnul : 0 ∈ line
  · exact congrArg (tokens isDelimiter) (cutAt_append_of_mem hnul [10])
  · have hline : cstr line = line := cutAt_of_not_mem hnul
    have hnewline : cstr (line ++ [10]) = line ++ [10] := cutAt_append_of_not_mem hnul [10]
    rw [hline, hnewline]
    exact tokens_append_delim rfl line

/-- A line that starts with no key gives no value. -/
theorem given_of_not_keyed (h : ∀ key more, ¬Keyed line key more) (hname : name ∈ names) :
    given name line = none := by
  unfold given
  cases hwords : tokens isDelimiter (cstr line) with
  | nil => rfl
  | cons key more =>
    have hkey : cutAt 35 key ≠ name := fun heq => h key more ⟨hwords, heq ▸ hname⟩
    cases more with
    | nil => rfl
    | cons value more => exact if_neg hkey

/-- A line that starts with no key carries no value. -/
theorem carried_of_not_keyed (h : ∀ key more, ¬Keyed line key more) (hname : name ∈ names) :
    carried name line = none := by
  cases hwords : tokens isDelimiter (cstr line) with
  | nil =>
    have hnone : strtok isDelimiter (cstr line) = none := by
      cases hfound : strtok isDelimiter (cstr line) with
      | none => rfl
      | some found =>
        rw [tokens_eq, hfound] at hwords
        cases hwords
    rw [carried, tokens_cutAt_of_none hnone]
  | cons key more =>
    have hne : cutAt 35 key ≠ name := fun heq => h key more ⟨hwords, heq ▸ hname⟩
    obtain ⟨rest, hfound, -⟩ := strtok_of_tokens_cons hwords
    unfold carried
    by_cases hmem : 35 ∈ key
    · rw [tokens_cutAt_of_mem rfl hfound hmem]
      split_ifs <;> rfl
    · rw [tokens_cutAt_of_not_mem rfl hfound hmem]
      rw [cutAt_of_not_mem hmem] at hne
      cases tokens isDelimiter (cutAt 35 rest) with
      | nil => rfl
      | cons value more => exact if_neg hne

/-- A line that starts with two words carries the second if there is no comment before or at its
first byte. -/
theorem carried_of_words {key value : Bytes} {rest : List Bytes}
    (hwords : tokens isDelimiter (cstr line) = key :: value :: rest) : carried name line =
      if 35 ∉ key ∧ cutAt 35 value ≠ [] then given name line else none := by
  obtain ⟨tail, hfound, htail⟩ := strtok_of_tokens_cons hwords
  unfold carried
  by_cases hmem : 35 ∈ key
  · rw [if_neg fun h => h.1 hmem, tokens_cutAt_of_mem rfl hfound hmem]
    split_ifs <;> rfl
  · rw [tokens_cutAt_of_not_mem rfl hfound hmem]
    by_cases hvalue : cutAt 35 value = []
    · rw [if_neg fun h => h.2 hvalue, tokens_cutAt_nil rfl htail.symm hvalue]
    · obtain ⟨more, hcut⟩ := tokens_cutAt_cons rfl htail.symm hvalue
      rw [if_pos ⟨hmem, hvalue⟩, given, hwords, hcut]
      dsimp only
      rw [cutAt_of_not_mem hmem]

/-- The first piece of a tidy line gives what the line carries. -/
theorem given_take_eq_carried (h : Tidy line) (hname : name ∈ names) :
    given name (line.take 255) = carried name line := by
  by_cases hkeyed : ∃ key more, Keyed (line.take 255) key more
  · obtain ⟨key, more, hwords, hkey⟩ := hkeyed
    obtain ⟨hnot, value, rest, rfl, hvalue⟩ := h.valued key more ⟨hwords, hkey⟩
    have hprefix : cstr line = cstr (line.take 255) ++ (cstr line).drop 255 := by
      have htake : cstr (line.take 255) = (cstr line).take 255 := List.take_takeWhile.symm
      rw [htake, List.take_append_drop]
    -- The key ends in the first piece, so it is the first word of the line.
    obtain ⟨more, hline⟩ := tokens_append_of_cons_cons hwords ((cstr line).drop 255)
    rw [← hprefix] at hline
    have huncut := h.uncut key more ⟨hline, hkey⟩
    rw [hwords] at huncut
    obtain ⟨-, hsecond⟩ := List.cons.inj huncut
    cases more with
    | nil => cases hsecond
    | cons value' rest' =>
      obtain ⟨rfl, -⟩ := List.cons.inj hsecond
      rw [carried_of_words hline, if_pos ⟨hnot, hvalue⟩, given, given, hwords, hline]
  · have hline : ∀ key more, ¬Keyed line key more := by
      rintro key more ⟨hwords, hkey⟩
      have huncut := h.uncut key more ⟨hwords, hkey⟩
      cases htake : tokens isDelimiter (cstr (line.take 255)) with
      | nil =>
        rw [htake] at huncut
        cases huncut
      | cons key' more' =>
        rw [htake] at huncut
        obtain ⟨rfl, -⟩ := List.cons.inj huncut
        exact hkeyed ⟨key', more', htake, hkey⟩
    rw [given_of_not_keyed (fun key more hfirst => hkeyed ⟨key, more, hfirst⟩) hname,
      carried_of_not_keyed hline hname]

/-- All the pieces of a tidy line together give what it carries. -/
theorem filterMap_given_pieces (h : Tidy line) (hname : name ∈ names) :
    (pieces 255 line).filterMap (given name) = (carried name line).toList := by
  rw [← given_take_eq_carried h hname]
  by_cases hne : line = []
  · rw [hne]
    rfl
  · have hlater : (pieces 255 (line.drop 255)).filterMap (given name) = [] :=
      List.filterMap_eq_nil_iff.mpr fun piece hpiece =>
        given_of_not_keyed (h.later piece hpiece) hname
    rw [pieces_eq_cons (by decide) hne, filterMap_given_cons, hlater, List.append_nil]

/-- No piece of a tidy line is a key alone. -/
theorem not_valueless_of_tidy (h : Tidy line) : ∀ piece ∈ pieces 255 line, ¬Valueless piece := by
  rintro piece hpiece ⟨key, hkeyed⟩
  by_cases hne : line = []
  · rw [hne, pieces_nil (by decide)] at hpiece
    cases hpiece
  · rw [pieces_eq_cons (by decide) hne] at hpiece
    rcases List.mem_cons.mp hpiece with rfl | hpiece
    · obtain ⟨-, value, rest, hnil, -⟩ := h.valued key [] hkeyed
      cases hnil
    · exact h.later piece hpiece key [] hkeyed

end Tidy

/-! ## When a file is read as it is meant -/

/-- `NULL` is never used, and the configuration is the one that the file means. -/
def ReadAsMeant (system : System) (file : Bytes) : Prop :=
  ∃ parsed, parseConfig system (some file) = some parsed ∧ parsed.config = intended system file

section Reading

variable {system : System} {file before line : Bytes}

/-- The words of a line, if there are any. -/
def wordsOf (line : Bytes) : Option (List Bytes) :=
  if tokens isDelimiter (cstr line) = [] then none else some (tokens isDelimiter (cstr line))

theorem given_eq_bind (name line : Bytes) : given name line = (wordsOf line).bind fun words =>
    match words with
    | key :: value :: _ => if cutAt 35 key = name then some (cutAt 35 value) else none
    | _ => none := by
  unfold given wordsOf
  split_ifs with hwords
  · rw [hwords]
    rfl
  · rfl

theorem wordsOf_eq_some {words : List Bytes} (hne : words ≠ []) :
    wordsOf line = some words ↔ tokens isDelimiter (cstr line) = words := by
  unfold wordsOf
  split_ifs with hnil
  · exact iff_of_false (fun h => by cases h) fun h => hne (h.symm.trans hnil)
  · exact Option.some_inj

/-- The pieces of all the lines. -/
def allPieces (file : Bytes) : List Bytes := (file.splitOn 10).flatMap (pieces 255)

/-- What `fgets` reads are the pieces of the lines, as far as words are concerned. -/
theorem wordsOf_readLines (file : Bytes) :
    (readLines file).filterMap wordsOf = (allPieces file).filterMap wordsOf := by
  have hnewline : ∀ line, wordsOf (line ++ [10]) = wordsOf line := fun line => by
    rw [wordsOf, wordsOf, tokens_cstr_newline]
  exact filterMap_fgetsLines (by decide) hnewline rfl (Nat.le_refl _)

theorem given_readLines (name file : Bytes) :
    (readLines file).filterMap (given name) = (allPieces file).filterMap (given name) := by
  have hgiven : given name = fun line => (wordsOf line).bind _ := funext (given_eq_bind name)
  rw [hgiven, ← List.filterMap_filterMap, wordsOf_readLines, List.filterMap_filterMap]

theorem valueless_readLines (file : Bytes) :
    (∃ line ∈ readLines file, Valueless line) ↔ ∃ piece ∈ allPieces file, Valueless piece := by
  have hwords : ∀ lines : List Bytes, (∃ line ∈ lines, Valueless line) ↔
      ∃ key, [key] ∈ lines.filterMap wordsOf ∧ cutAt 35 key ∈ names := by
    intro lines
    simp only [List.mem_filterMap, wordsOf_eq_some (List.cons_ne_nil _ _)]
    constructor
    · rintro ⟨line, hmem, key, hkey, hname⟩
      exact ⟨key, ⟨line, hmem, hkey⟩, hname⟩
    · rintro ⟨key, ⟨line, hmem, hkey⟩, hname⟩
      exact ⟨line, hmem, key, hkey, hname⟩
  rw [hwords, hwords, wordsOf_readLines]

/-- `NULL` is used exactly where a piece of a line is a key alone. -/
theorem parseConfig_eq_none_iff : parseConfig system (some file) = none ↔
    ∃ piece ∈ allPieces file, Valueless piece := by
  rw [← valueless_readLines]
  rcases parseLines_eq system (readLines file) ⟨defaultConfig system, []⟩ with
    ⟨hvalueless, hnone⟩ | ⟨hvalued, q, hq, -⟩
  · exact iff_of_true hnone hvalueless
  · refine iff_of_false (fun hnone => ?_) fun ⟨line, hmem, hline⟩ => hvalued line hmem hline
    exact absurd (hq.symm.trans hnone) (Option.some_ne_none q)

/-- The pieces against the lines. -/
theorem readAsMeant_iff : ReadAsMeant system file ↔ (∀ piece ∈ allPieces file, ¬Valueless piece) ∧
    settle system (defaultConfig system) (fun name => (allPieces file).filterMap (given name)) =
      intended system file := by
  have hnone := valueless_readLines file
  rcases parseLines_eq system (readLines file) ⟨defaultConfig system, []⟩ with
    ⟨hvalueless, hresult⟩ | ⟨hvalued, q, hq, hlast⟩
  · refine iff_of_false ?_ fun h => ?_
    · rintro ⟨parsed, hparsed, -⟩
      exact absurd (hresult.symm.trans hparsed) (Option.some_ne_none _).symm
    · obtain ⟨piece, hmem, hpiece⟩ := hnone.mp hvalueless
      exact h.1 piece hmem hpiece
  · simp only [given_readLines] at hlast
    constructor
    · rintro ⟨parsed, hparsed, heq⟩
      obtain rfl : q = parsed := Option.some.inj (hq.symm.trans hparsed)
      refine ⟨fun piece hmem hpiece => ?_, hlast.symm.trans heq⟩
      obtain ⟨line, hline, hvalueless⟩ := hnone.mpr ⟨piece, hmem, hpiece⟩
      exact hvalued line hline hvalueless
    · rintro ⟨-, heq⟩
      exact ⟨q, hq, hlast.trans heq⟩

theorem filterMap_given_allPieces (h : ∀ line ∈ file.splitOn 10, Tidy line) {name : Bytes}
    (hname : name ∈ names) : (allPieces file).filterMap (given name) = carriedValues file name := by
  rw [allPieces, carriedValues]
  generalize file.splitOn 10 = lines at h
  induction lines with
  | nil => rfl
  | cons line lines ih =>
    obtain ⟨hline, hlines⟩ := List.forall_mem_cons.mp h
    rw [List.flatMap_cons, List.filterMap_append, ih hlines, filterMap_given_pieces hline hname]
    cases hcarried : carried name line with
    | none => rw [List.filterMap_cons_none hcarried]; rfl
    | some value => rw [List.filterMap_cons_some hcarried]; rfl

/-- A file of tidy lines is read as it is meant. -/
theorem readAsMeant_of_tidy (system : System) (h : ∀ line ∈ file.splitOn 10, Tidy line) :
    ReadAsMeant system file := by
  rw [readAsMeant_iff]
  constructor
  · intro piece hpiece
    obtain ⟨line, hline, hpiece⟩ := List.mem_flatMap.mp hpiece
    exact not_valueless_of_tidy (h line hline) piece hpiece
  · exact settle_congr fun name hname => filterMap_given_allPieces h hname

/-! ## Lines that are not tidy -/

/-- A line that is not tidy has a key alone, or gives a value for a key where it carries none. -/
theorem exists_given_of_not_tidy (hlen : line.length ≤ 255) (h : ¬Tidy line) :
    Valueless line ∨ ∃ key ∈ names, ∃ value,
      (∀ name, (given name line).toList = oneValue key (some value) name) ∧
      ∀ name ∈ names, carried name line = none := by
  rw [tidy_iff_of_length_le hlen] at h
  push Not at h
  obtain ⟨key, more, ⟨hwords, hkey⟩, hbad⟩ := h
  cases more with
  | nil => exact .inl ⟨key, hwords, hkey⟩
  | cons value rest =>
    refine .inr ⟨cutAt 35 key, hkey, cutAt 35 value, fun name => ?_, fun name _ => ?_⟩
    · rw [given, hwords, oneValue]
      dsimp only
      split <;> rfl
    · rw [carried_of_words hwords, if_neg fun hgood => hgood.2 (hbad hgood.1 value rest rfl)]

/-- What a file with one more line means. -/
theorem intended_append (hline : 10 ∉ line) : intended system (before ++ 10 :: line) =
    settle system (intended system before) fun name => (carried name line).toList := by
  have hvalues : ∀ name, carriedValues (before ++ 10 :: line) name =
      carriedValues before name ++ (carried name line).toList := fun name => by
    rw [carriedValues, List.splitOn_append_cons_self, List.splitOn_eq_singleton hline,
      List.filterMap_append, carriedValues]
    cases hcarried : carried name line with
    | none => rw [List.filterMap_cons_none hcarried]; rfl
    | some value => rw [List.filterMap_cons_some hcarried]; rfl
  have hmeant : ∀ file, intended system file =
      settle system (defaultConfig system) (carriedValues file) := fun _ => rfl
  rw [hmeant, hmeant, ← settle_append]
  exact congrArg _ (funext hvalues)

/-- How one more line is read behind a tidy file. -/
theorem readAsMeant_append (hbefore : ∀ line ∈ before.splitOn 10, Tidy line) (hline : 10 ∉ line)
    (hlen : line.length ≤ 255) (h : ReadAsMeant system (before ++ 10 :: line)) :
    ¬Valueless line ∧ (settle system (intended system before) fun name =>
      (given name line).toList) = intended system (before ++ 10 :: line) := by
  obtain ⟨hvalued, hmeant⟩ := readAsMeant_iff.mp h
  have hpieces : allPieces (before ++ 10 :: line) = allPieces before ++ pieces 255 line := by
    rw [allPieces, List.splitOn_append_cons_self, List.splitOn_eq_singleton hline,
      List.flatMap_append, List.flatMap_singleton, allPieces]
  constructor
  · intro hvalueless
    have hne : line ≠ [] := by
      rintro rfl
      obtain ⟨key, hkey, -⟩ := hvalueless
      cases hkey
    refine hvalued line ?_ hvalueless
    rw [hpieces, pieces_of_length_le (by decide) hne hlen]
    exact List.mem_append_right _ List.mem_cons_self
  · have hgiven : ∀ name ∈ names, (allPieces (before ++ 10 :: line)).filterMap (given name) =
        carriedValues before name ++ (given name line).toList := fun name hname => by
      rw [hpieces, List.filterMap_append, filterMap_given_allPieces hbefore hname,
        filterMap_pieces_of_length_le (by decide) rfl hlen]
    rw [← hmeant, settle_congr hgiven, settle_append]
    rfl

/-- A file of one line with one key and one value. -/
theorem tidy_lines_of_words (key value : Bytes) (hline : 10 ∉ line) (hlen : line.length ≤ 255)
    (hwords : tokens isDelimiter (cstr line) = [key, value]) (hkey : 35 ∉ key)
    (hvalue : cutAt 35 value ≠ []) : ∀ l ∈ line.splitOn 10, Tidy l := by
  rw [List.splitOn_eq_singleton hline]
  exact List.forall_mem_singleton.mpr (tidy_of_words hlen hwords hkey hvalue)

/-- Each value of each key makes a difference behind some tidy file, on some system. -/
theorem exists_settle_ne {key : Bytes} (hkey : key ∈ names) (value : Bytes) :
    ∃ system before, (∀ line ∈ before.splitOn 10, Tidy line) ∧
      settle system (intended system before) (oneValue key (some value)) ≠
        intended system before := by
  have hnil : ∀ line ∈ ([] : Bytes).splitOn 10, Tidy line := by
    rw [List.splitOn_nil]
    exact List.forall_mem_singleton.mpr tidy_nil
  let system : System := ⟨0, 0, fun _ => some 1, fun _ => some 1⟩
  simp only [names, List.mem_cons, List.not_mem_nil, or_false] at hkey
  rcases hkey with rfl | rfl | rfl | rfl | rfl
  · by_cases hvalue : value = defaultFilePath
    · refine ⟨system, ascii "file /", tidy_lines_of_words (ascii "file") (ascii "/") (by decide)
        (by decide) (by decide) (by decide) (by decide), fun heq => ?_⟩
      have hpath : value = ascii "/" := congrArg Config.filePath heq
      exact absurd (hvalue.symm.trans hpath) (by decide)
    · exact ⟨system, [], hnil, fun heq => hvalue (congrArg Config.filePath heq)⟩
  · by_cases hvalue : value = defaultSocketPath
    · refine ⟨system, ascii "socket /", tidy_lines_of_words (ascii "socket") (ascii "/")
        (by decide) (by decide) (by decide) (by decide) (by decide), fun heq => ?_⟩
      have hpath : value = ascii "/" := congrArg Config.socketPath heq
      exact absurd (hvalue.symm.trans hpath) (by decide)
    · exact ⟨system, [], hnil, fun heq => hvalue (congrArg Config.socketPath heq)⟩
  · cases hvalue : isYes value with
    | true =>
      refine ⟨system, ascii "daemonize no", tidy_lines_of_words (ascii "daemonize") (ascii "no")
        (by decide) (by decide) (by decide) (by decide) (by decide), fun heq => ?_⟩
      have hno : isYes value = false := congrArg Config.daemonize heq
      exact absurd (hvalue.symm.trans hno) (by decide)
    | false =>
      refine ⟨system, [], hnil, fun heq => ?_⟩
      have hyes : isYes value = true := congrArg Config.daemonize heq
      exact absurd (hvalue.symm.trans hyes) (by decide)
  · exact ⟨system, [], hnil, fun heq => absurd (congrArg Config.runAsUid heq) Nat.one_ne_zero⟩
  · exact ⟨system, [], hnil, fun heq => absurd (congrArg Config.runAsGid heq) Nat.one_ne_zero⟩

/-- A line that is not tidy is not read as it is meant behind some tidy file. -/
theorem exists_not_readAsMeant (hline : 10 ∉ line) (hlen : line.length ≤ 255) (h : ¬Tidy line) :
    ∃ system before, (∀ line ∈ before.splitOn 10, Tidy line) ∧
      ¬ReadAsMeant system (before ++ 10 :: line) := by
  rcases exists_given_of_not_tidy hlen h with hvalueless | ⟨key, hkey, value, hgiven, hcarried⟩
  · have hfile : ascii "file" ∈ names := by decide
    obtain ⟨system, before, hbefore, -⟩ := exists_settle_ne hfile []
    exact ⟨system, before, hbefore, fun hread =>
      (readAsMeant_append hbefore hline hlen hread).1 hvalueless⟩
  · obtain ⟨system, before, hbefore, hne⟩ := exists_settle_ne hkey value
    refine ⟨system, before, hbefore, fun hread => hne ?_⟩
    have hmeant := (readAsMeant_append hbefore hline hlen hread).2
    rw [intended_append hline, ← settle_none hcarried] at hmeant
    simp only [hgiven] at hmeant
    exact hmeant

end Reading

/-- A file of tidy lines is read as it is meant; `NULL` is used exactly where a piece of a line is
a key alone; and a line of at most 255 bytes is tidy exactly if it is read as it is meant behind
every file of tidy lines. -/
theorem parse_config_iff (system : System) (file : Bytes) :
    ((∀ line ∈ file.splitOn 10, Tidy line) → ReadAsMeant system file) ∧
    (parseConfig system (some file) = none ↔
      ∃ line ∈ file.splitOn 10, ∃ piece ∈ pieces 255 line, ∃ key, Keyed piece key []) ∧
    ∀ line, 10 ∉ line → line.length ≤ 255 → (Tidy line ↔ ∀ system before,
      (∀ line ∈ before.splitOn 10, Tidy line) → ReadAsMeant system (before ++ 10 :: line)) := by
  refine ⟨readAsMeant_of_tidy system, ?_, fun line hline hlen => ⟨?_, ?_⟩⟩
  · rw [parseConfig_eq_none_iff, allPieces]
    constructor
    · rintro ⟨piece, hpiece, key, hkey⟩
      obtain ⟨line, hmem, hpiece⟩ := List.mem_flatMap.mp hpiece
      exact ⟨line, hmem, piece, hpiece, key, hkey⟩
    · rintro ⟨line, hmem, piece, hpiece, key, hkey⟩
      exact ⟨piece, List.mem_flatMap.mpr ⟨line, hmem, hpiece⟩, key, hkey⟩
  · intro htidy system before hbefore
    refine readAsMeant_of_tidy system ?_
    rw [List.splitOn_append_cons_self, List.splitOn_eq_singleton hline]
    exact List.forall_mem_append.mpr ⟨hbefore, List.forall_mem_singleton.mpr htidy⟩
  · intro h
    by_contra htidy
    obtain ⟨system, before, hbefore, hread⟩ := exists_not_readAsMeant hline hlen htidy
    exact hread (h system before hbefore)

/-- A key without a value is not survived. -/
theorem key_alone_not_survived :
    ¬ReadAsMeant ⟨0, 0, fun _ => none, fun _ => none⟩ (ascii "file\n") := by
  have hnone : parseConfig ⟨0, 0, fun _ => none, fun _ => none⟩ (some (ascii "file\n")) = none := by
    decide
  rintro ⟨parsed, hparsed, -⟩
  exact absurd (hnone.symm.trans hparsed) (Option.some_ne_none _).symm

end CourseWork.Daemon
