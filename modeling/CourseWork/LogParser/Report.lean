import CourseWork.LogParser.Parallel
import CourseWork.Lib.Sorting
import CourseWork.Lib.Stdio

/-!
# The report of the log parser

The sorted tables that `main` prints. Two runs print the same totals, and the same entries
where no other entry has the same total; the order of entries with equal totals depends on the
order in which the threads merge their tables.
-/

namespace CourseWork.LogParser
open CLib HashTable Runs Sorting

/-! ## Sorting and printing -/

/-- `TOP_N`. -/
def topN : Nat := 10

/-- `compare_urls`. -/
def compareUrls (u1 u2 : Bytes × Int) : Int :=
  if u2.2 > u1.2 then 1 else if u2.2 < u1.2 then -1 else 0

/-- `compare_referers`. -/
def compareReferers (r1 r2 : Bytes × Nat) : Int :=
  if r2.2 > r1.2 then 1 else if r2.2 < r1.2 then -1 else 0

/-- `url_table_to_array`. -/
def urlTableToArray (table : UrlHashTable) : List (Bytes × Int) := table.entries

/-- `referer_table_to_array`. -/
def refererTableToArray (table : RefererHashTable) : List (Bytes × Nat) := table.entries

/-- The line `"%d. %s - %lld bytes\n"`. -/
def urlLine (i : Nat) (u : Bytes × Int) : Bytes :=
  printInt (i + 1) ++ ascii ". " ++ u.1 ++ ascii " - " ++ printInt u.2 ++ ascii " bytes\n"

/-- The line `"%d. %s - %d requests\n"`. -/
def refererLine (i : Nat) (r : Bytes × Nat) : Bytes :=
  printInt (i + 1) ++ ascii ". " ++ r.1 ++ ascii " - " ++ printInt r.2 ++ ascii " requests\n"

/-- The first lines of a sorted array, or a line that tells that there are none. -/
def printTop {V : Type} (line : Nat → Bytes × V → Bytes) (nothing : Bytes)
    (array : List (Bytes × V)) : Bytes :=
  if array = [] then nothing else ((array.take topN).mapIdx line).flatten

variable {n n' : Nat}

/-- The sorted array of the URLs. -/
def sortedUrls (qsort : Qsort (Bytes × Int)) (p : Program n) : Option (List (Bytes × Int)) :=
  qsort (fun a b => some (compareUrls a b)) (urlTableToArray p.globalUrlTable)

/-- The sorted array of the referers. -/
def sortedReferers (qsort : Qsort (Bytes × Nat)) (p : Program n) : Option (List (Bytes × Nat)) :=
  qsort (fun a b => some (compareReferers a b)) (refererTableToArray p.globalRefererTable)

/-- The list of the URLs as `main` prints it. -/
def printedUrls (qsort : Qsort (Bytes × Int)) (p : Program n) : Option Bytes :=
  (sortedUrls qsort p).map (printTop urlLine (ascii "(no URLs found)\n"))

/-- The list of the referers as `main` prints it. -/
def printedReferers (qsort : Qsort (Bytes × Nat)) (p : Program n) : Option Bytes :=
  (sortedReferers qsort p).map (printTop refererLine (ascii "(no referers found)\n"))

/-! ## Rankings -/

/-- Two lists of the largest entries that differ only where totals are equal: in the order of
such entries, and in the choice of those with the smallest total. -/
structure SameRanking {V : Type} [LinearOrder V] (entries top top' : List (Bytes × V)) : Prop where
  totals : top.map Prod.snd = top'.map Prod.snd
  above : ∀ e ∈ top, (∃ e' ∈ top, e'.2 < e.2) → e ∈ top'
  unique : ∀ (i : Nat) e, top[i]? = some e → (∀ e' ∈ entries, e'.2 = e.2 → e' = e) →
    top'[i]? = some e

section Rankings

variable {V : Type} [LinearOrder V] {entries array array' : List (Bytes × V)}

theorem sameRanking_take (h : array.Pairwise fun a b => b.2 ≤ a.2)
    (h' : array'.Pairwise fun a b => b.2 ≤ a.2) (hperm : array.Perm entries)
    (hperm' : array'.Perm entries) :
    SameRanking entries (array.take topN) (array'.take topN) := by
  have hboth : array.Perm array' := hperm.trans hperm'.symm
  refine ⟨?_, fun e he hsmaller => ?_, fun i e hi hunique => ?_⟩
  · rw [List.map_take, List.map_take, map_key_eq h h' hboth]
  · obtain ⟨e', he', hlt⟩ := hsmaller
    exact mem_take_of_lt h h' hboth he he' hlt
  · rw [List.getElem?_take] at hi ⊢
    split at hi
    · next hlt =>
      rw [if_pos hlt]
      exact getElem?_eq_of_unique h h' hboth hi fun b hb => hunique b (hperm.subset hb)
    · cases hi

/-- Without equal totals there is only one sorted array. -/
theorem array_unique (h : array.Pairwise fun a b => b.2 ≤ a.2)
    (h' : array'.Pairwise fun a b => b.2 ≤ a.2) (hperm : array.Perm entries)
    (hperm' : array'.Perm entries) (hnodup : (entries.map Prod.snd).Nodup) : array = array' := by
  have hboth : array.Perm array' := hperm.trans hperm'.symm
  have hinjective := List.inj_on_of_nodup_map hnodup
  have hlen := hboth.length_eq
  apply List.ext_getElem? fun i => ?_
  cases hi : array[i]? with
  | none =>
    rw [List.getElem?_eq_none_iff] at hi
    exact (List.getElem?_eq_none (hlen ▸ hi)).symm
  | some e =>
    refine (getElem?_eq_of_unique h h' hboth hi fun b hb heq => ?_).symm
    exact hinjective (hperm.subset hb) (hperm.subset (List.mem_of_getElem? hi)) heq

end Rankings

/-! ## Runs -/

theorem compareUrls_le_zero_iff (a b : Bytes × Int) : compareUrls a b ≤ 0 ↔ b.2 ≤ a.2 := by
  unfold compareUrls
  split
  · next h => exact iff_of_false (by decide) (not_le.mpr h)
  · next h =>
    refine iff_of_true ?_ (not_lt.mp h)
    split
    · decide
    · exact Int.le_refl 0

theorem compareReferers_le_zero_iff (a b : Bytes × Nat) :
    compareReferers a b ≤ 0 ↔ b.2 ≤ a.2 := by
  unfold compareReferers
  split
  · next h => exact iff_of_false (by decide) (not_le.mpr h)
  · next h =>
    refine iff_of_true ?_ (not_lt.mp h)
    split
    · decide
    · exact Int.le_refl 0

/-- The tables of two finished runs have the same entries. -/
theorem perm_tables {files files' : List File} (hfiles : files.Perm files')
    {trace : List (Program n × Fin n)} {p : Program n} (hn : 0 < n)
    (hrun : Run (Program.Step files) (Program.main n) trace p)
    (hexited : ∀ t, p.thread t = .exited)
    {trace' : List (Program n' × Fin n')} {p' : Program n'} (hn' : 0 < n')
    (hrun' : Run (Program.Step files') (Program.main n') trace' p')
    (hexited' : ∀ t, p'.thread t = .exited) :
    p.globalUrlTable.entries.Perm p'.globalUrlTable.entries ∧
      p.globalRefererTable.entries.Perm p'.globalRefererTable.entries := by
  obtain ⟨_, rs, hperm, h⟩ := shared_exited hn hrun hexited
  obtain ⟨_, rs', hperm', h'⟩ := shared_exited hn' hrun' hexited'
  have hlines : rs.Perm rs' := hperm.trans ((hfiles.flatMap_right fileLines).trans hperm'.symm)
  obtain ⟨_, hurls, hreferers⟩ := h.unique h' hlines
  exact ⟨perm_entries h.urls_valid h'.urls_valid hurls,
    perm_entries h.referers_valid h'.referers_valid hreferers⟩

/-- The lists of two finished runs are the same up to entries with equal totals. -/
theorem report_sameRanking {qsortUrls : Qsort (Bytes × Int)} {qsortReferers : Qsort (Bytes × Nat)}
    (hqsortUrls : IsQsort qsortUrls) (hqsortReferers : IsQsort qsortReferers)
    {files files' : List File} (hfiles : files.Perm files')
    {trace : List (Program n × Fin n)} {p : Program n} (hn : 0 < n)
    (hrun : Run (Program.Step files) (Program.main n) trace p)
    (hexited : ∀ t, p.thread t = .exited)
    {trace' : List (Program n' × Fin n')} {p' : Program n'} (hn' : 0 < n')
    (hrun' : Run (Program.Step files') (Program.main n') trace' p')
    (hexited' : ∀ t, p'.thread t = .exited) :
    (∃ urls urls', sortedUrls qsortUrls p = some urls ∧ sortedUrls qsortUrls p' = some urls' ∧
      SameRanking p.globalUrlTable.entries (urls.take topN) (urls'.take topN)) ∧
    (∃ referers referers', sortedReferers qsortReferers p = some referers ∧
      sortedReferers qsortReferers p' = some referers' ∧
      SameRanking p.globalRefererTable.entries (referers.take topN) (referers'.take topN)) ∧
    ((p.globalUrlTable.entries.map Prod.snd).Nodup →
      printedUrls qsortUrls p = printedUrls qsortUrls p') ∧
    ((p.globalRefererTable.entries.map Prod.snd).Nodup →
      printedReferers qsortReferers p = printedReferers qsortReferers p') := by
  obtain ⟨hurls, hreferers⟩ := perm_tables hfiles hn hrun hexited hn' hrun' hexited'
  have hsortUrls : ∀ {m : Nat} (q : Program m), ∃ urls, sortedUrls qsortUrls q = some urls ∧
      urls.Perm q.globalUrlTable.entries ∧ urls.Pairwise fun a b => b.2 ≤ a.2 := fun q =>
    hqsortUrls.sorts_by_key Prod.snd fun a _ b _ => ⟨_, rfl, compareUrls_le_zero_iff a b⟩
  have hsortReferers : ∀ {m : Nat} (q : Program m), ∃ referers,
      sortedReferers qsortReferers q = some referers ∧
      referers.Perm q.globalRefererTable.entries ∧
        referers.Pairwise fun a b => b.2 ≤ a.2 := fun q =>
    hqsortReferers.sorts_by_key Prod.snd fun a _ b _ => ⟨_, rfl, compareReferers_le_zero_iff a b⟩
  obtain ⟨urls, hu, hup, hus⟩ := hsortUrls p
  obtain ⟨urls', hu', hup', hus'⟩ := hsortUrls p'
  obtain ⟨referers, hr, hrp, hrs⟩ := hsortReferers p
  obtain ⟨referers', hr', hrp', hrs'⟩ := hsortReferers p'
  refine ⟨⟨urls, urls', hu, hu', sameRanking_take hus hus' hup (hup'.trans hurls.symm)⟩,
    ⟨referers, referers', hr, hr', sameRanking_take hrs hrs' hrp (hrp'.trans hreferers.symm)⟩,
    fun hnodup => ?_, fun hnodup => ?_⟩
  · rw [printedUrls, printedUrls, hu, hu',
      array_unique hus hus' hup (hup'.trans hurls.symm) hnodup]
  · rw [printedReferers, printedReferers, hr, hr',
      array_unique hrs hrs' hrp (hrp'.trans hreferers.symm) hnodup]

/-- A log of one request of a url, for 7 bytes. -/
def requestLog (url : Bytes) : File :=
  some (ascii "- - - [] \"GET " ++ url ++ ascii "\" 200 7 \"-\"\n")

/-- Two logs whose urls have the same hash. -/
def collidingLogs : List File := [requestLog (ascii "/aB"), requestLog (ascii "/b!")]

/-- The table of two threads with one file each, merged one after the other. -/
def mergedTable (first second : File) : UrlHashTable :=
  mergeUrlTables (processFile second (.create hashTableSize)).urlTable
    (mergeUrlTables (processFile first (.create hashTableSize)).urlTable
      (Table.create (hashTableSize * 2)))

/-- Each of two threads takes one file, and thread 0 merges first. -/
theorem exec_zero_first (a b : File) : ∃ p,
    exec (Program.step [a, b]) [0, 1, 0, 1, 0, 1, 0, 1, 0, 1] (Program.main 2) = some p ∧
      p.thread 0 = .exited ∧ p.thread 1 = .exited ∧ p.globalUrlTable = mergedTable a b :=
  ⟨_, rfl, rfl, rfl, rfl⟩

/-- Thread 1 merges first. -/
theorem exec_one_first (a b : File) : ∃ p,
    exec (Program.step [a, b]) [0, 1, 0, 1, 0, 1, 0, 1, 1, 0] (Program.main 2) = some p ∧
      p.thread 0 = .exited ∧ p.thread 1 = .exited ∧ p.globalUrlTable = mergedTable b a :=
  ⟨_, rfl, rfl, rfl, rfl⟩

/-- Two runs that differ in the order of the merges. -/
theorem colliding_runs : ∃ trace trace', ∃ p p' : Program 2,
    Run (Program.Step collidingLogs) (Program.main 2) trace p ∧ (∀ t, p.thread t = .exited) ∧
    Run (Program.Step collidingLogs) (Program.main 2) trace' p' ∧ (∀ t, p'.thread t = .exited) ∧
    p.globalUrlTable = mergedTable (requestLog (ascii "/aB")) (requestLog (ascii "/b!")) ∧
    p'.globalUrlTable = mergedTable (requestLog (ascii "/b!")) (requestLog (ascii "/aB")) := by
  obtain ⟨p, hp, hzero, hone, htable⟩ :=
    exec_zero_first (requestLog (ascii "/aB")) (requestLog (ascii "/b!"))
  obtain ⟨p', hp', hzero', hone', htable'⟩ :=
    exec_one_first (requestLog (ascii "/aB")) (requestLog (ascii "/b!"))
  obtain ⟨trace, htrace⟩ := Run.nil.exec hp
  obtain ⟨trace', htrace'⟩ := Run.nil.exec hp'
  exact ⟨trace, trace', p, p', htrace, Fin.forall_fin_two.mpr ⟨hzero, hone⟩, htrace',
    Fin.forall_fin_two.mpr ⟨hzero', hone'⟩, htable, htable'⟩

theorem report_sameRanking_colliding : ∃ p p' : Program 2, ∃ urls urls',
    sortedUrls checkedSort p = some urls ∧ sortedUrls checkedSort p' = some urls' ∧
      SameRanking p.globalUrlTable.entries (urls.take topN) (urls'.take topN) := by
  obtain ⟨_, _, p, p', hrun, hexited, hrun', hexited', _⟩ := colliding_runs
  have hfiles := List.Perm.refl collidingLogs
  obtain ⟨urls, urls', hurls, hurls', hsame⟩ :=
    (report_sameRanking isQsort_checkedSort isQsort_checkedSort hfiles (by decide) hrun hexited
      (by decide) hrun' hexited').1
  exact ⟨p, p', urls, urls', hurls, hurls', hsame⟩

/-- Two runs of two threads that merge in different orders print different lists. -/
theorem report_differs :
    ∃ trace trace', ∃ p p' : Program 2,
      Run (Program.Step collidingLogs) (Program.main 2) trace p ∧ (∀ t, p.thread t = .exited) ∧
      Run (Program.Step collidingLogs) (Program.main 2) trace' p' ∧ (∀ t, p'.thread t = .exited) ∧
      printedUrls checkedSort p = some (ascii "1. /b! - 7 bytes\n2. /aB - 7 bytes\n") ∧
      printedUrls checkedSort p' = some (ascii "1. /aB - 7 bytes\n2. /b! - 7 bytes\n") := by
  obtain ⟨trace, trace', p, p', hrun, hexited, hrun', hexited', htable, htable'⟩ := colliding_runs
  refine ⟨trace, trace', p, p', hrun, hexited, hrun', hexited', ?_, ?_⟩
  · rw [printedUrls, sortedUrls, urlTableToArray, htable]
    decide +kernel
  · rw [printedUrls, sortedUrls, urlTableToArray, htable']
    decide +kernel

end CourseWork.LogParser
