import CourseWork.Databases.TestDbJob

/-!
# Agreement of the databases

For which columns `process_sqlite` and `process_mongodb` agree: MongoDB passes over a `NULL` that
fails SQLite, and both take a string of spaces for a number.
-/

namespace CourseWork.Databases
open CLib

/-! ## Numbers -/

section Numbers

variable {realText : Number → Bytes}

/-- All is space behind a number up to which only spaces are passed over. -/
theorem isNumeric_eq {s : Bytes} (hne : cstr s ≠ []) (herange : (strtod (cstr s)).2.2 = false) :
    isNumeric (some s) =
      if ((cstr s).drop (strtod (cstr s)).2.1).all isSpace then some (strtod (cstr s)).1
      else none := by
  have hread := strtod_length_le (cstr s)
  have hpos := List.length_pos_of_ne_nil hne
  have hskip := List.takeWhile_sublist (l := (cstr s).drop (strtod (cstr s)).2.1) isSpace
  have hall : ((strtod (cstr s)).2.1 +
        (((cstr s).drop (strtod (cstr s)).2.1).takeWhile isSpace).length ≠ 0 ∧
      (strtod (cstr s)).2.1 + (((cstr s).drop (strtod (cstr s)).2.1).takeWhile isSpace).length =
        (cstr s).length) ↔ ((cstr s).drop (strtod (cstr s)).2.1).all isSpace = true := by
    rw [List.all_eq_true, ← List.takeWhile_eq_self_iff]
    constructor
    · rintro ⟨-, hend⟩
      refine hskip.eq_of_length ?_
      rw [List.length_drop]
      omega
    · intro heq
      rw [heq, List.length_drop]
      omega
  unfold isNumeric
  dsimp only
  rw [if_neg hne, herange, if_neg Bool.false_ne_true]
  exact ite_congr (propext hall) (fun _ => rfl) fun _ => rfl

/-- No string of spaces is a number. -/
theorem not_isNumber_of_blank {s : Bytes} (h : Blank s) : ¬IsNumber s := fun hnumber =>
  hnumber.1 (by rw [strtod_blank h.2])

/-- `is_numeric` takes a string of spaces for a number. -/
theorem isNumeric_isSome_iff {s : Bytes} : (isNumeric (some s)).isSome ↔ IsNumber s ∨ Blank s := by
  by_cases hne : cstr s = []
  · have hnone : isNumeric (some s) = none := if_pos hne
    rw [hnone]
    refine iff_of_false Bool.false_ne_true ?_
    rintro (hnumber | hblank)
    · refine hnumber.1 (Nat.le_zero.mp ?_)
      have hread := strtod_length_le (cstr s)
      rwa [hne] at hread ⊢
    · exact hblank.1 hne
  cases herange : (strtod (cstr s)).2.2 with
  | true =>
    have hnone : isNumeric (some s) = none := by
      unfold isNumeric
      dsimp only
      rw [if_neg hne, herange, if_pos rfl]
    rw [hnone]
    refine iff_of_false Bool.false_ne_true ?_
    rintro (hnumber | hblank)
    · exact absurd (herange.symm.trans hnumber.2.1) (Bool.false_ne_true).symm
    · rw [strtod_blank hblank.2] at herange
      exact Bool.false_ne_true herange
  | false =>
    rw [isNumeric_eq hne herange]
    constructor
    · intro h
      split at h
      · next hall =>
        have hspaces := List.all_eq_true.mp hall
        by_cases hread : (strtod (cstr s)).2.1 = 0
        · rw [hread] at hspaces
          exact .inr ⟨hne, hspaces⟩
        · exact .inl ⟨hread, herange, hspaces⟩
      · cases h
    · rintro (hnumber | hblank)
      · rw [if_pos (List.all_eq_true.mpr hnumber.2.2)]
        rfl
      · have hspaces : ∀ c ∈ (cstr s).drop (strtod (cstr s)).2.1, isSpace c = true := fun c hc =>
          hblank.2 c (List.mem_of_mem_drop hc)
        rw [if_pos (List.all_eq_true.mpr hspaces)]
        rfl

/-- The integers of a column are read as they are. -/
theorem isNumeric_integer (n : Int64) :
    isNumeric (columnText realText (.integer n)) = some (.finite n.toInt) := by
  have hbound : |n.toInt| ≤ 2 ^ 63 := by
    have hle := n.toInt_lt
    have hge := n.le_toInt
    rw [abs_le]
    omega
  have hnul : 0 ∉ printInt n.toInt := fun hmem => by
    rcases mem_printInt hmem with h | h
    · exact absurd h (by decide)
    · exact absurd h (by decide)
  have hstring : cstr (printInt n.toInt) = printInt n.toInt := cutAt_of_not_mem hnul
  have hne : cstr (printInt n.toInt) ≠ [] := by
    obtain ⟨c, cs, hprint, -⟩ := printInt_head n.toInt
    rw [hstring, hprint]
    exact List.cons_ne_nil c cs
  have hread := strtod_printInt hbound
  have heq := isNumeric_eq hne (by rw [hstring, hread])
  rw [hstring, hread] at heq
  rw [columnText, heq, List.drop_length, List.all_nil, if_pos rfl]

end Numbers

/-! ## The loops -/

section Loops

variable {realText : Number → Bytes} {values : List Value} {fields : List Bson}

/-- The number that SQLite's text of a value has. -/
def numberOf (realText : Number → Bytes) (value : Value) : Option Number :=
  isNumeric (columnText realText value)

/-- A column with a value that is not numeric stops the loop. -/
theorem sqliteLoop_error {value : Value} (hnone : numberOf realText value = none)
    {rows : List Value} (hmem : value ∈ rows) (stats : Statistics) :
    ∃ text, sqliteLoop realText rows stats = .error text := by
  induction rows generalizing stats with
  | nil => exact absurd hmem List.not_mem_nil
  | cons row rows ih =>
    unfold sqliteLoop
    cases hrow : isNumeric (columnText realText row) with
    | none => exact ⟨_, rfl⟩
    | some val =>
      have htail : value ∈ rows := (List.mem_cons.mp hmem).resolve_left fun heq => by
        rw [← heq] at hrow
        exact absurd (hnone.symm.trans hrow) (Option.some_ne_none val).symm
      exact ih htail _

/-- A numeric column is read to the end. -/
theorem sqliteLoop_ok : ∀ {rows : List Value} (stats : Statistics),
    (∀ value ∈ rows, numberOf realText value ≠ none) →
      sqliteLoop realText rows stats =
        .ok ((rows.filterMap (numberOf realText)).foldl statsUpdate stats)
  | [], _, _ => rfl
  | row :: rows, stats, h => by
    obtain ⟨hrow, hrows⟩ := List.forall_mem_cons.mp h
    obtain ⟨val, hval⟩ := Option.ne_none_iff_exists'.mp hrow
    have hnumber : isNumeric (columnText realText row) = some val := hval
    rw [sqliteLoop, hnumber, List.filterMap_cons_some hval]
    exact sqliteLoop_ok _ hrows

/-- What the loop over the documents does with a field that holds a value. -/
theorem readField_eq (realText : Number → Bytes) {value : Value} {field : Bson}
    (hholds : Holds value field)
    (hexact : ∀ x, value = .real x → isNumeric (some (realText x)) = some x) :
    (∃ val, numberOf realText value = some val ∧ readField (some field) = .number val) ∨
    (∃ s message, value = .text s ∧ numberOf realText value = none ∧
      readField (some field) = .message message true) ∨
    (value = .null ∧ numberOf realText value = none ∧
      ∃ message, readField (some field) = .message message false) := by
  have hinteger : ∀ n : Int64, numberOf realText (.integer n) = some (.finite n.toInt) :=
    isNumeric_integer
  have hreal : ∀ x, value = .real x → numberOf realText (.real x) = some x := hexact
  cases hholds with
  | @int32 n m heq =>
    refine .inl ⟨.finite n.toInt, hinteger n, ?_⟩
    rw [readField, heq]
  | int64 n => exact .inl ⟨.finite n.toInt, hinteger n, rfl⟩
  | integerDouble n => exact .inl ⟨.finite n.toInt, hinteger n, rfl⟩
  | double x => exact .inl ⟨x, hreal x rfl, rfl⟩
  | realInt32 m => exact .inl ⟨.finite m.toInt, hreal _ rfl, rfl⟩
  | realInt64 m => exact .inl ⟨.finite m.toInt, hreal _ rfl, rfl⟩
  | utf8 s =>
    cases hnumber : isNumeric (some s) with
    | some val =>
      refine .inl ⟨val, hnumber, ?_⟩
      rw [readField, hnumber]
    | none =>
      refine .inr (.inl ⟨s, .notNumericString s, rfl, hnumber, ?_⟩)
      rw [readField, hnumber]
  | null => exact .inr (.inr ⟨rfl, rfl, .notNumericType "null", rfl⟩)

/-- A string that `is_numeric` does not take. -/
def HasRejected (values : List Value) : Prop := ∃ s, .text s ∈ values ∧ isNumeric (some s) = none

theorem hasRejected_cons {value : Value} : HasRejected (value :: values) ↔
    (∃ s, value = .text s ∧ isNumeric (some s) = none) ∨ HasRejected values := by
  constructor
  · rintro ⟨s, hmem, hnone⟩
    rcases List.mem_cons.mp hmem with heq | hmem
    · exact .inl ⟨s, heq.symm, hnone⟩
    · exact .inr ⟨s, hmem, hnone⟩
  · rintro (⟨s, rfl, hnone⟩ | ⟨s, hmem, hnone⟩)
    · exact ⟨s, List.mem_cons_self, hnone⟩
    · exact ⟨s, List.mem_cons_of_mem _ hmem, hnone⟩

/-- The loop over the documents is left at a string that is not numeric, and passes over a
`NULL`. -/
theorem mongodbLoop_eq (hsame : List.Forall₂ Holds values fields) :
    (∀ x, .real x ∈ values → isNumeric (some (realText x)) = some x) →
    ∀ (stats : Statistics) (stderr : List Message),
      HasRejected values ∧ (mongodbLoop (fields.map some) stats stderr).1 = none ∨
      ¬HasRejected values ∧ (mongodbLoop (fields.map some) stats stderr).1 =
        some ((values.filterMap (numberOf realText)).foldl statsUpdate stats) := by
  induction hsame with
  | nil =>
    intro _ stats stderr
    refine .inr ⟨?_, rfl⟩
    rintro ⟨s, hmem, -⟩
    exact absurd hmem List.not_mem_nil
  | @cons value field values fields hholds _ ih =>
    intro hexact stats stderr
    have hrest := ih fun x hmem => hexact x (List.mem_cons_of_mem _ hmem)
    have hvalue := readField_eq realText hholds fun x heq => hexact x (by
      rw [heq]
      exact List.mem_cons_self)
    rw [hasRejected_cons, List.map_cons, mongodbLoop]
    rcases hvalue with ⟨val, hnumber, hfield⟩ | ⟨s, message, rfl, hnone, hfield⟩ |
      ⟨rfl, hnone, message, hfield⟩
    · have htaken : ¬∃ s, value = .text s ∧ isNumeric (some s) = none := by
        rintro ⟨s, rfl, hnone⟩
        exact absurd (hnone.symm.trans hnumber) (Option.some_ne_none val).symm
      rw [hfield, List.filterMap_cons_some hnumber, List.foldl_cons, or_iff_right htaken]
      exact hrest _ _
    · rw [hfield]
      exact .inl ⟨.inl ⟨s, rfl, hnone⟩, rfl⟩
    · have htaken : ¬∃ s, Value.null = .text s ∧ isNumeric (some s) = none := by
        rintro ⟨s, heq, -⟩
        cases heq
      rw [hfield, List.filterMap_cons_none hnone, or_iff_right htaken]
      exact hrest _ _

end Loops

/-! ## Agreement -/

section Agreement

variable {realText : Number → Bytes} {values : List Value} {fields : List Bson}

/-- A run of `process_sqlite` over the rows of a column. -/
def sqliteRun (realText : Number → Bytes) (values : List Value) : Outcome :=
  processSqlite ⟨true, true, true, values, true, realText⟩

/-- A run of `process_mongodb` over documents with a field. -/
def mongodbRun (fields : List Bson) : Outcome :=
  processMongodb ⟨true, true, fields.map some, false⟩

theorem sqliteRun_fails {value : Value} (hmem : value ∈ values)
    (hnone : numberOf realText value = none) : (sqliteRun realText values).Fails := by
  obtain ⟨text, herror⟩ := sqliteLoop_error hnone hmem statsInit
  have hrun : sqliteRun realText values = ⟨1, none, [.notNumeric text]⟩ := by
    unfold sqliteRun processSqlite
    dsimp only
    rw [herror]
    rfl
  rw [hrun]
  exact ⟨Int.one_ne_zero, rfl⟩

/-- What is printed for a column without the values that are not numeric. -/
def reportOf (realText : Number → Bytes) (values : List Value) : Report :=
  statsPrint ((values.filterMap (numberOf realText)).foldl statsUpdate statsInit)

theorem sqliteRun_succeeds (h : ∀ value ∈ values, numberOf realText value ≠ none) :
    (sqliteRun realText values).Succeeds (reportOf realText values) := by
  have hrun : sqliteRun realText values = ⟨0, some (reportOf realText values), []⟩ := by
    unfold sqliteRun processSqlite
    dsimp only
    rw [sqliteLoop_ok _ h]
    rfl
  rw [hrun]
  exact ⟨rfl, rfl⟩

/-- A run over documents fails exactly at a string that is not numeric. -/
theorem mongodbRun_eq (hsame : List.Forall₂ Holds values fields)
    (hexact : ∀ x, .real x ∈ values → isNumeric (some (realText x)) = some x) :
    HasRejected values ∧ (mongodbRun fields).Fails ∨
    ¬HasRejected values ∧ (mongodbRun fields).Succeeds (reportOf realText values) := by
  rcases mongodbLoop_eq hsame hexact statsInit [] with ⟨hrejected, hloop⟩ | ⟨hrejected, hloop⟩
  · refine .inl ⟨hrejected, ?_⟩
    unfold mongodbRun processMongodb
    generalize mongodbLoop (fields.map some) statsInit [] = ended at hloop
    obtain ⟨stats, stderr⟩ := ended
    cases hloop
    exact ⟨Int.one_ne_zero, rfl⟩
  · refine .inr ⟨hrejected, ?_⟩
    unfold mongodbRun processMongodb
    generalize mongodbLoop (fields.map some) statsInit [] = ended at hloop
    obtain ⟨stats, stderr⟩ := ended
    cases hloop
    exact ⟨rfl, rfl⟩

/-- Without `NULL` and strings that are not numeric, SQLite's text of every value is numeric. -/
theorem numberOf_ne_none (hexact : ∀ x, .real x ∈ values → isNumeric (some (realText x)) = some x)
    (hrejected : ¬HasRejected values) (hnull : .null ∉ values) :
    ∀ value ∈ values, numberOf realText value ≠ none := by
  intro value hmem hnone
  cases value with
  | integer n => exact absurd (hnone.symm.trans (isNumeric_integer n)) (Option.some_ne_none _).symm
  | real x => exact absurd (hnone.symm.trans (hexact x hmem)) (Option.some_ne_none _).symm
  | text s => exact hrejected ⟨s, hmem, hnone⟩
  | null => exact hnull hmem

theorem Outcome.not_succeeds_of_fails {outcome : Outcome} {report : Report}
    (hfails : outcome.Fails) : ¬outcome.Succeeds report := fun hsucceeds =>
  hfails.1 hsucceeds.1

/-- A string that `is_numeric` does not take is neither a number nor blank. -/
theorem hasRejected_iff :
    HasRejected values ↔ ∃ s, .text s ∈ values ∧ ¬IsNumber s ∧ ¬Blank s := by
  refine exists_congr fun s => and_congr_right fun _ => ?_
  rw [← Option.not_isSome_iff_eq_none, isNumeric_isSome_iff, not_or]

/-- The databases agree exactly if a string is neither a number nor blank, or if no value is `NULL`
or a blank string. -/
theorem databases_agree_iff (hsame : List.Forall₂ Holds values fields)
    (hexact : ∀ x, .real x ∈ values → isNumeric (some (realText x)) = some x) :
    Agree values (sqliteRun realText values) (mongodbRun fields) ↔
      (∃ s, .text s ∈ values ∧ ¬IsNumber s ∧ ¬Blank s) ∨
      .null ∉ values ∧ ∀ s, .text s ∈ values → ¬Blank s := by
  rw [← hasRejected_iff]
  rcases mongodbRun_eq hsame hexact with ⟨hrejected, hmongodb⟩ | ⟨hrejected, hmongodb⟩
  · obtain ⟨s, hmem, hnone⟩ := id hrejected
    have hnumber : ¬IsNumber s := fun hnumber =>
      absurd (isNumeric_isSome_iff.mpr (.inl hnumber)) (by
        rw [hnone]
        exact Bool.false_ne_true)
    exact iff_of_true (.inl ⟨⟨.text s, hmem, .text hnumber⟩, sqliteRun_fails hmem hnone, hmongodb⟩)
      (.inl hrejected)
  · rw [or_iff_right hrejected]
    have hnumeric : ∀ s, .text s ∈ values → IsNumber s ∨ Blank s := fun s hmem =>
      isNumeric_isSome_iff.mp <| Option.isSome_iff_ne_none.mpr fun hnone =>
        hrejected ⟨s, hmem, hnone⟩
    by_cases hnull : .null ∈ values
    · have hfails : (sqliteRun realText values).Fails := sqliteRun_fails hnull rfl
      refine iff_of_false ?_ fun h => h.1 hnull
      rintro (⟨-, -, hfails'⟩ | ⟨-, report, hsucceeds, -⟩)
      · exact Outcome.not_succeeds_of_fails hfails' hmongodb
      · exact Outcome.not_succeeds_of_fails hfails hsucceeds
    · have hsqlite := sqliteRun_succeeds (numberOf_ne_none hexact hrejected hnull)
      constructor
      · rintro (⟨-, -, hfails⟩ | ⟨hgood, -⟩)
        · exact absurd hmongodb (Outcome.not_succeeds_of_fails hfails)
        · exact ⟨hnull, fun s hmem hblank =>
            hgood ⟨.text s, hmem, .text (not_isNumber_of_blank hblank)⟩⟩
      · rintro ⟨-, hblank⟩
        refine .inr ⟨?_, _, hsqlite, hmongodb⟩
        rintro ⟨value, hmem, hbad⟩
        cases hbad with
        | null => exact hnull hmem
        | @text s hnumber => exact (hnumeric s hmem).elim hnumber (hblank s hmem)

/-- The databases agree about numbers in three kinds of fields. -/
theorem databases_agree_numbers :
    Agree [.integer 3, .real (.finite (5 / 2)), .text (ascii "7")]
      (sqliteRun (fun _ => ascii "2.5") [.integer 3, .real (.finite (5 / 2)), .text (ascii "7")])
      (mongodbRun [.int32 3, .double (.finite (5 / 2)), .utf8 (ascii "7")]) := by
  have hsame : List.Forall₂ Holds [.integer 3, .real (.finite (5 / 2)), .text (ascii "7")]
      [.int32 3, .double (.finite (5 / 2)), .utf8 (ascii "7")] :=
    .cons (.int32 rfl) (.cons (.double _) (.cons (.utf8 _) .nil))
  have hseven : ¬Blank (ascii "7") := fun hblank =>
    absurd (hblank.2 55 (by decide)) (by decide)
  refine (databases_agree_iff hsame ?_).mpr (.inr ⟨by decide, ?_⟩)
  · intro x hmem
    simp only [List.mem_cons, Value.real.injEq, List.not_mem_nil, or_false, reduceCtorEq,
      false_or] at hmem
    subst hmem
    decide +kernel
  · intro s hmem
    simp only [List.mem_cons, Value.text.injEq, List.not_mem_nil, or_false, reduceCtorEq,
      false_or] at hmem
    rw [hmem]
    exact hseven

/-- A `NULL` fails SQLite only. -/
theorem null_passed_over :
    ¬Agree [.null] (sqliteRun (fun _ => []) [.null]) (mongodbRun [.null]) := by
  rintro (⟨-, -, hfails⟩ | ⟨hgood, -⟩)
  · exact absurd hfails.1 (by decide)
  · exact hgood ⟨.null, List.mem_cons_self, .null⟩

end Agreement

end CourseWork.Databases
