import CourseWork.Lib.Strtod
import Mathlib.Data.List.Forall2

/-!
# Statistics of a database column

`test_db_job`: the same statistics over a column of SQLite and over a field of MongoDB documents,
in exact arithmetic. SQLite hands every value over as text, BSON keeps its type.
-/

namespace CourseWork.Databases
open CLib

/-! ## Statistics -/

/-- `is_numeric`, with the value in `out_val`; `none` for the string is `NULL`. -/
def isNumeric : Option Bytes → Option Number
  | none => none
  | some str =>
    if cstr str = [] then none
    else
      let (val, read, erange) := strtod (cstr str)
      let endptr := read + (((cstr str).drop read).takeWhile isSpace).length
      if erange then none
      else if endptr ≠ 0 ∧ endptr = (cstr str).length then some val
      else none

/-- `Statistics`. -/
structure Statistics where
  count : Nat
  sum : Number
  sumSq : Number
  minVal : Number
  maxVal : Number
  deriving DecidableEq

/-- `stats_init`. -/
def statsInit : Statistics := ⟨0, .finite 0, .finite 0, .infinity false, .infinity true⟩

/-- `stats_update`. -/
def statsUpdate (stats : Statistics) (val : Number) : Statistics where
  count := stats.count + 1
  sum := stats.sum.add val
  sumSq := stats.sumSq.add (val.mul val)
  minVal := if stats.count = 0 then val else if val.lt stats.minVal then val else stats.minVal
  maxVal := if stats.count = 0 then val else if stats.maxVal.lt val then val else stats.maxVal

/-- What `stats_print` prints. -/
inductive Report where
  | noData
  | statistics (count : Nat) (sum minVal maxVal mean variance : Number)
  deriving DecidableEq

/-- `stats_print`. -/
def statsPrint (stats : Statistics) : Report :=
  if stats.count = 0 then .noData
  else
    let mean := stats.sum.divNat stats.count
    let variance := (stats.sumSq.divNat stats.count).add (mean.mul mean).neg
    .statistics stats.count stats.sum stats.minVal stats.maxVal mean variance

/-- The messages to `stderr`. -/
inductive Message where
  | openFailed
  | noMemory
  | prepareFailed
  | notNumeric (text : Option Bytes)
  | queryFailed
  | clientFailed
  | collectionFailed
  | notNumericString (text : Bytes)
  | notNumericType (name : String)
  | fieldMissing
  | cursorFailed
  deriving DecidableEq

/-- What a run prints, and its result. -/
structure Outcome where
  result : Int
  stdout : Option Report
  stderr : List Message
  deriving DecidableEq

/-! ## SQLite -/

/-- A value of a column. -/
inductive Value where
  | integer (n : Int64)
  | real (x : Number)
  | text (s : Bytes)
  | null
  deriving DecidableEq

/-- What the calls of SQLite return: whether a call succeeds, the rows, whether the last step ends
with `SQLITE_DONE`, and the text of a real number. -/
structure Sqlite where
  opens : Bool
  hasMemory : Bool
  prepares : Bool
  rows : List Value
  done : Bool
  realText : Number → Bytes

/-- `sqlite3_column_text`. -/
def columnText (realText : Number → Bytes) : Value → Option Bytes
  | .integer n => some (printInt n.toInt)
  | .real x => some (realText x)
  | .text s => some s
  | .null => none

/-- The loop over the rows, which ends with the text that is not numeric or with the
statistics. -/
def sqliteLoop (realText : Number → Bytes) :
    List Value → Statistics → Except (Option Bytes) Statistics
  | [], stats => .ok stats
  | value :: rows, stats =>
    match isNumeric (columnText realText value) with
    | none => .error (columnText realText value)
    | some val => sqliteLoop realText rows (statsUpdate stats val)

/-- `process_sqlite`. -/
def processSqlite (db : Sqlite) : Outcome :=
  if !db.opens then ⟨1, none, [.openFailed]⟩
  else if !db.hasMemory then ⟨1, none, [.noMemory]⟩
  else if !db.prepares then ⟨1, none, [.prepareFailed]⟩
  else
    match sqliteLoop db.realText db.rows statsInit with
    | .error text => ⟨1, none, [.notNumeric text]⟩
    | .ok stats =>
      if !db.done then ⟨1, none, [.queryFailed]⟩
      else ⟨0, some (statsPrint stats), []⟩

/-! ## MongoDB -/

/-- A value of a field. -/
inductive Bson where
  | int32 (n : Int32)
  | int64 (n : Int64)
  | double (x : Number)
  | utf8 (s : Bytes)
  | null
  | bool
  | array
  | document
  | other
  deriving DecidableEq

/-- What the calls of the driver return: whether a call succeeds, the field of each document, if it
has one, and whether the cursor fails. -/
structure Mongodb where
  hasClient : Bool
  hasCollection : Bool
  documents : List (Option Bson)
  cursorFails : Bool

/-- What the loop does with a field: the number that it has, or a message and whether the loop is
left. -/
inductive Field where
  | number (val : Number)
  | message (text : Message) (leave : Bool)

/-- The branches for the type of a field. -/
def readField : Option Bson → Field
  | none => .message .fieldMissing true
  | some (.int32 n) => .number (.finite n.toInt)
  | some (.int64 n) => .number (.finite n.toInt)
  | some (.double x) => .number x
  | some (.utf8 s) =>
    match isNumeric (some s) with
    | some val => .number val
    | none => .message (.notNumericString s) true
  | some .null => .message (.notNumericType "null") false
  | some .bool => .message (.notNumericType "bool") false
  | some .array => .message (.notNumericType "array") false
  | some .document => .message (.notNumericType "document") false
  | some .other => .message (.notNumericType "other") false

/-- The loop over the documents, with the messages so far; it ends with the statistics, or with
`none` where it is left. -/
def mongodbLoop : List (Option Bson) → Statistics → List Message →
    Option Statistics × List Message
  | [], stats, stderr => (some stats, stderr)
  | field :: documents, stats, stderr =>
    match readField field with
    | .number val => mongodbLoop documents (statsUpdate stats val) stderr
    | .message text leave =>
      if leave then (none, stderr ++ [text])
      else mongodbLoop documents stats (stderr ++ [text])

/-- `process_mongodb`. -/
def processMongodb (db : Mongodb) : Outcome :=
  if !db.hasClient then ⟨1, none, [.clientFailed]⟩
  else if !db.hasCollection then ⟨1, none, [.collectionFailed]⟩
  else
    match mongodbLoop db.documents statsInit [] with
    | (none, stderr) => ⟨1, none, stderr⟩
    | (some stats, stderr) =>
      if db.cursorFails then ⟨1, none, stderr ++ [.cursorFailed]⟩
      else ⟨0, some (statsPrint stats), stderr⟩

/-! ## The same values in both -/

/-- A field holds a value of a column. -/
inductive Holds : Value → Bson → Prop
  | int32 {n : Int64} {m : Int32} : m.toInt = n.toInt → Holds (.integer n) (.int32 m)
  | int64 (n : Int64) : Holds (.integer n) (.int64 n)
  | integerDouble (n : Int64) : Holds (.integer n) (.double (.finite n.toInt))
  | double (x : Number) : Holds (.real x) (.double x)
  | realInt32 (m : Int32) : Holds (.real (.finite m.toInt)) (.int32 m)
  | realInt64 (m : Int64) : Holds (.real (.finite m.toInt)) (.int64 m)
  | utf8 (s : Bytes) : Holds (.text s) (.utf8 s)
  | null : Holds .null .null

/-- A string in which `strtod` finds a number of its range, with spaces behind it. -/
def IsNumber (s : Bytes) : Prop :=
  (strtod (cstr s)).2.1 ≠ 0 ∧ (strtod (cstr s)).2.2 = false ∧
    ∀ c ∈ (cstr s).drop (strtod (cstr s)).2.1, isSpace c = true

/-- A value for which there are no statistics. -/
inductive NotNumeric : Value → Prop
  | null : NotNumeric .null
  | text {s : Bytes} : ¬IsNumber s → NotNumeric (.text s)

/-- A run that fails without printing statistics. -/
def Outcome.Fails (outcome : Outcome) : Prop := outcome.result ≠ 0 ∧ outcome.stdout = none

/-- A run that succeeds with a report. -/
def Outcome.Succeeds (outcome : Outcome) (report : Report) : Prop :=
  outcome.result = 0 ∧ outcome.stdout = some report

/-- The runs agree about values: both fail where one is not numeric, and print the same where all
are. -/
def Agree (values : List Value) (sqlite mongodb : Outcome) : Prop :=
  ((∃ value ∈ values, NotNumeric value) ∧ sqlite.Fails ∧ mongodb.Fails) ∨
  (¬(∃ value ∈ values, NotNumeric value) ∧
    ∃ report, sqlite.Succeeds report ∧ mongodb.Succeeds report)

/-- A string of spaces. -/
def Blank (s : Bytes) : Prop := cstr s ≠ [] ∧ ∀ c ∈ cstr s, isSpace c = true

end CourseWork.Databases
