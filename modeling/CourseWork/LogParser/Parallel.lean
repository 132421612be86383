import CourseWork.LogParser.Aggregate
import CourseWork.Lib.Runs
import Mathlib.Algebra.BigOperators.Fin
import Mathlib.Data.Multiset.Basic
import Mathlib.Tactic.Abel

/-!
# Parallel and sequential aggregation

The lines of a claimed file are held by the thread that claimed it, until it merges them
into the shared tables. So the threads together hold what a sequential run would hold, for
every interleaving of their steps.
-/

namespace CourseWork.LogParser
open CLib HashTable Runs

variable {n : Nat} {files : List File}

/-- The lines of the files with these indexes. -/
def linesOf (files : List File) (indexes : List Nat) : List LogLine :=
  indexes.flatMap fun i => fileLines (files[i]?.getD none)

theorem linesOf_append (files : List File) (indexes indexes' : List Nat) :
    linesOf files (indexes ++ indexes') = linesOf files indexes ++ linesOf files indexes' :=
  List.flatMap_append

/-- All files in order. -/
theorem linesOf_range (files : List File) :
    linesOf files (List.range files.length) = files.flatMap fileLines := by
  have hmap : (List.range files.length).map (fun i => files[i]?.getD none) = files := by
    apply List.ext_getElem
    · rw [List.length_map, List.length_range]
    · intro i hi hi'
      rw [List.getElem_map, List.getElem_range, List.getElem?_eq_getElem hi', Option.getD_some]
  conv_rhs => rw [← hmap]
  rw [List.flatMap_map, linesOf]

/-! ## The files of a thread -/

/-- The file that a thread has claimed and not yet processed. -/
def Thread.pending : Thread → List Nat
  | .processing _ fileIndex => [fileIndex]
  | _ => []

/-- The thread has left its loop. -/
def Thread.finished : Thread → Bool
  | .merging _ | .exited => true
  | _ => false

/-- The thread holds the lines of these files. -/
def Thread.Holds (files : List File) (indexes : List Nat) : Thread → Prop
  | .created | .exited => indexes = []
  | .claiming data | .processing data _ | .merging data =>
    Aggregates data.urlTable data.refererTable data.threadTotalBytes (linesOf files indexes)

/-- The file that the step of thread `t` processes. -/
def Program.processes (p : Program n) (t : Fin n) : List Nat := (p.thread t).pending

/-- The files that a run has processed, the latest first. -/
def processedFiles (trace : List (Program n × Fin n)) : List Nat :=
  trace.flatMap fun x => x.1.processes x.2

/-- A step relation for the runs. -/
def Program.Step (files : List File) (p : Program n) (t : Fin n) (p' : Program n) : Prop :=
  p.step files t = some p'

/-! ## The invariant -/

/-- The files are shared out: the claimed ones are processed or pending, and the lines of the
processed ones are merged or held by a thread. -/
structure Shared (files : List File) (p : Program n) (processed merged : List Nat)
    (held : Fin n → List Nat) : Prop where
  global : Aggregates p.globalUrlTable p.globalRefererTable p.totalBytes (linesOf files merged)
  threads : ∀ t, (p.thread t).Holds files (held t)
  claimed : (Multiset.range p.nextFileIndex : Multiset Nat) =
    processed + ∑ t, ((p.thread t).pending : Multiset Nat)
  processed : (processed : Multiset Nat) = merged + ∑ t, (held t : Multiset Nat)
  bound : p.nextFileIndex ≤ files.length
  finished : ∀ t, (p.thread t).finished → p.nextFileIndex = files.length

theorem shared_main (n : Nat) (files : List File) :
    Shared files (Program.main n) [] [] (fun _ => []) where
  global := aggregates_create (by decide)
  threads _ := rfl
  claimed := by simp [Program.main, Thread.pending]
  processed := by simp
  bound := Nat.zero_le _
  finished := nofun

/-- The sum over the threads after one of them has changed. -/
theorem sum_update (f : Fin n → Multiset Nat) (t : Fin n) (m : Multiset Nat) :
    ∑ t', Function.update f t m t' + f t = m + ∑ t', f t' := by
  rw [Finset.sum_update_of_mem (Finset.mem_univ t), ← Finset.add_sum_erase _ _ (Finset.mem_univ t),
    Finset.sdiff_singleton_eq_erase, add_assoc, add_comm _ (f t)]

/-- What a step of one thread has to keep. -/
theorem Shared.move {p p' : Program n} {processed merged merged' : List Nat}
    {held : Fin n → List Nat} {t : Fin n} {thread : Thread} (new indexes : List Nat)
    (h : Shared files p processed merged held)
    (hthread : p'.thread = Function.update p.thread t thread)
    (hglobal : Aggregates p'.globalUrlTable p'.globalRefererTable p'.totalBytes
      (linesOf files merged'))
    (hholds : thread.Holds files indexes)
    (hclaimed : Multiset.range p'.nextFileIndex + ((p.thread t).pending : Multiset Nat) =
      Multiset.range p.nextFileIndex + (new + thread.pending))
    (hprocessed : (new + merged + held t : Multiset Nat) = merged' + indexes)
    (hbound : p'.nextFileIndex ≤ files.length)
    (hnext : p.nextFileIndex = files.length → p'.nextFileIndex = files.length)
    (hfinished : thread.finished → p'.nextFileIndex = files.length) :
    Shared files p' (new ++ processed) merged' (Function.update held t indexes) where
  global := hglobal
  threads t' := by
    rw [hthread]
    by_cases ht : t' = t
    · subst ht
      rw [Function.update_self, Function.update_self]
      exact hholds
    · rw [Function.update_of_ne ht, Function.update_of_ne ht]
      exact h.threads t'
  claimed := by
    have hsum := sum_update (fun t' => ((p.thread t').pending : Multiset Nat)) t thread.pending
    have hpending : (fun t' => ((p'.thread t').pending : Multiset Nat)) =
        Function.update (fun t' => ((p.thread t').pending : Multiset Nat)) t thread.pending := by
      rw [hthread]
      exact funext fun t' => Function.apply_update (fun _ th => (Thread.pending th : Multiset Nat))
        p.thread t thread t'
    rw [← hpending] at hsum
    apply add_right_cancel (b := ((p.thread t).pending : Multiset Nat))
    rw [hclaimed, add_assoc, hsum, h.claimed, ← Multiset.coe_add]
    abel
  processed := by
    have hsum := sum_update (fun t' => (held t' : Multiset Nat)) t indexes
    have hheld : (fun t' => (Function.update held t indexes t' : Multiset Nat)) =
        Function.update (fun t' => (held t' : Multiset Nat)) t indexes :=
      funext fun t' =>
        Function.apply_update (fun _ (l : List Nat) => (l : Multiset Nat)) held t indexes t'
    rw [← hheld] at hsum
    apply add_right_cancel (b := (held t : Multiset Nat))
    rw [add_assoc, hsum, ← add_assoc, ← hprocessed, ← Multiset.coe_add, h.processed]
    abel
  bound := hbound
  finished t' := by
    rw [hthread]
    by_cases ht : t' = t
    · subst ht
      rw [Function.update_self]
      exact hfinished
    · rw [Function.update_of_ne ht]
      exact fun hfin => hnext (h.finished t' hfin)

/-- A step shares the files out in another way. -/
theorem Shared.step {p p' : Program n} {processed merged : List Nat} {held : Fin n → List Nat}
    {t : Fin n} (h : Shared files p processed merged held) (hstep : p.Step files t p') :
    ∃ merged' held', Shared files p' (p.processes t ++ processed) merged' held' := by
  have hholds := h.threads t
  have hfin := h.finished t
  rw [Program.Step, Program.step] at hstep
  rw [Program.processes]
  cases hthread : p.thread t with
  | created =>
    simp only [hthread] at hstep hholds
    cases hstep
    refine ⟨merged, _, Shared.move [] [] h rfl h.global (aggregates_create (by decide)) ?_ ?_
      h.bound id nofun⟩
    · rw [hthread]
      rfl
    · rw [show held t = [] from hholds]
      rfl
  | claiming data =>
    simp only [hthread] at hstep hholds
    split at hstep
    · next hlt =>
      cases hstep
      refine ⟨merged, _, Shared.move [] (held t) h rfl h.global hholds ?_ ?_ hlt ?_ nofun⟩
      · rw [hthread]
        show Multiset.range (p.nextFileIndex + 1) + 0 = _ + (0 + {p.nextFileIndex})
        rw [Multiset.range_succ, ← Multiset.singleton_add]
        abel
      · rw [Multiset.coe_nil, zero_add]
      · exact fun heq => absurd hlt (by omega)
    · next hge =>
      cases hstep
      have heq : p.nextFileIndex = files.length := Nat.le_antisymm h.bound (Nat.le_of_not_lt hge)
      refine ⟨merged, _, Shared.move [] (held t) h rfl h.global hholds ?_ ?_ h.bound id
        (fun _ => heq)⟩
      · rw [hthread]
        rfl
      · rw [Multiset.coe_nil, zero_add]
  | processing data fileIndex =>
    simp only [hthread] at hstep hholds
    cases hstep
    refine ⟨merged, _,
      Shared.move [fileIndex] (held t ++ [fileIndex]) h rfl h.global ?_ ?_ ?_ h.bound id
      nofun⟩
    · show Aggregates _ _ _ (linesOf files (held t ++ [fileIndex]))
      rw [linesOf_append, linesOf, linesOf, List.flatMap_singleton]
      exact hholds.processFile _
    · rw [hthread]
      rfl
    · rw [← Multiset.coe_add]
      abel
  | merging data =>
    simp only [hthread] at hstep hholds hfin
    cases hstep
    refine ⟨merged ++ held t, _, Shared.move [] [] h rfl ?_ rfl ?_ ?_ h.bound id hfin⟩
    · rw [linesOf_append]
      exact h.global.merge hholds
    · rw [hthread]
      rfl
    · rw [← Multiset.coe_add, Multiset.coe_nil, zero_add, add_zero]
  | exited =>
    simp only [hthread] at hstep
    cases hstep

/-! ## Runs -/

theorem shared_run {trace : List (Program n × Fin n)} {p : Program n}
    (hrun : Run (Program.Step files) (Program.main n) trace p) :
    ∃ merged held, Shared files p (processedFiles trace) merged held := by
  induction hrun with
  | nil => exact ⟨[], _, shared_main n files⟩
  | cons _ hstep ih =>
    obtain ⟨merged, held, h⟩ := ih
    exact h.step hstep

/-- When all threads have exited, all files are processed once and their lines merged. -/
theorem shared_exited {trace : List (Program n × Fin n)} {p : Program n} (hn : 0 < n)
    (hrun : Run (Program.Step files) (Program.main n) trace p)
    (hexited : ∀ t, p.thread t = .exited) :
    (processedFiles trace).Perm (List.range files.length) ∧
      ∃ rs, rs.Perm (files.flatMap fileLines) ∧
        Aggregates p.globalUrlTable p.globalRefererTable p.totalBytes rs := by
  obtain ⟨merged, held, h⟩ := shared_run hrun
  have hheld : ∀ t, held t = [] := fun t => by
    have hholds := h.threads t
    rw [hexited t] at hholds
    exact hholds
  have hnext : p.nextFileIndex = files.length := by
    refine h.finished ⟨0, hn⟩ ?_
    rw [hexited]
    rfl
  have hclaimed : (List.range files.length : Multiset Nat) = processedFiles trace := by
    have hclaimed := h.claimed
    simp only [hexited, Thread.pending, Multiset.coe_nil, Finset.sum_const_zero, add_zero]
      at hclaimed
    rw [← hclaimed, hnext]
    rfl
  have hprocessed : (processedFiles trace : Multiset Nat) = merged := by
    have hprocessed := h.processed
    simpa only [hheld, Multiset.coe_nil, Finset.sum_const_zero, add_zero] using hprocessed
  refine ⟨(Multiset.coe_eq_coe.mp hclaimed).symm, _, ?_, h.global⟩
  have hperm : merged.Perm (List.range files.length) :=
    (Multiset.coe_eq_coe.mp (hclaimed.trans hprocessed)).symm
  rw [← linesOf_range]
  exact hperm.flatMap_right _

/-- All files are processed one after another, with one table of each kind. -/
def sequential (size : Nat) (files : List File) : ThreadData :=
  files.foldl (fun data file => processFile file data) (ThreadData.create size)

theorem aggregates_foldl {data : ThreadData} {rs : List LogLine}
    (h : Aggregates data.urlTable data.refererTable data.threadTotalBytes rs) (files : List File) :
    Aggregates (files.foldl (fun data file => processFile file data) data).urlTable
      (files.foldl (fun data file => processFile file data) data).refererTable
      (files.foldl (fun data file => processFile file data) data).threadTotalBytes
      (rs ++ files.flatMap fileLines) := by
  induction files generalizing data rs with
  | nil =>
    rw [List.flatMap_nil, List.append_nil]
    exact h
  | cons file files ih =>
    rw [List.foldl_cons, List.flatMap_cons, ← List.append_assoc]
    exact ih (h.processFile file)

theorem aggregates_sequential {size : Nat} (hsize : 0 < size) (files : List File) :
    Aggregates (sequential size files).urlTable (sequential size files).refererTable
      (sequential size files).threadTotalBytes (files.flatMap fileLines) := by
  have hcreate : Aggregates (ThreadData.create size).urlTable (ThreadData.create size).refererTable
    (ThreadData.create size).threadTotalBytes [] := aggregates_create hsize
  exact aggregates_foldl hcreate files

/-- Valid tables that agree on every key have the same entries. -/
theorem perm_entries {V : Type} [AddCommMonoid V] {t t' : Table Bytes V} (h : t.Valid hash)
    (h' : t'.Valid hash) (hget : ∀ k, t.get hash k = t'.get hash k) : t.entries.Perm t'.entries := by
  refine (List.perm_ext_iff_of_nodup h.nodup_keys.of_map h'.nodup_keys.of_map).mpr ?_
  rintro ⟨k, v⟩
  rw [← h.get_eq_some, hget, h'.get_eq_some]

/-- For every interleaving the threads leave what one thread with one table computes. -/
theorem parallel_eq_sequential {trace : List (Program n × Fin n)} {p : Program n} (hn : 0 < n)
    (hrun : Run (Program.Step files) (Program.main n) trace p)
    (hexited : ∀ t, p.thread t = .exited) {size : Nat} (hsize : 0 < size) :
    p.totalBytes = (sequential size files).threadTotalBytes ∧
      p.globalUrlTable.entries.Perm (sequential size files).urlTable.entries ∧
      p.globalRefererTable.entries.Perm (sequential size files).refererTable.entries ∧
      (processedFiles trace).Perm (List.range files.length) ∧
      p.globalUrlTable.Valid hash ∧ (p.globalUrlTable.entries.map Prod.fst).Nodup ∧
      p.globalRefererTable.Valid hash ∧ (p.globalRefererTable.entries.map Prod.fst).Nodup ∧
      p.totalBytes = (p.globalUrlTable.entries.map Prod.snd).sum := by
  obtain ⟨hprocessed, rs, hperm, h⟩ := shared_exited hn hrun hexited
  have h' := aggregates_sequential hsize files
  obtain ⟨htotal, hurls, hreferers⟩ := h.unique h' hperm
  exact ⟨htotal, perm_entries h.urls_valid h'.urls_valid hurls,
    perm_entries h.referers_valid h'.referers_valid hreferers, hprocessed, h.urls_valid,
    h.urls_valid.nodup_keys, h.referers_valid, h.referers_valid.nodup_keys, h.urls_sum.symm⟩

/-- A log of one line. -/
def oneLine : File := some (ascii "- - - [] \"GET /a\" 200 7 \"b\"\n")

/-- Two threads and one file. -/
theorem parallel_eq_sequential_two :
    ∃ trace, ∃ p : Program 2, Run (Program.Step [oneLine]) (Program.main 2) trace p ∧
      p.totalBytes = 7 ∧ p.globalUrlTable.entries.Perm [(ascii "/a", 7)] ∧
      p.globalRefererTable.entries.Perm [(ascii "b", 1)] := by
  have hexec : ∃ p, exec (Program.step [oneLine]) [0, 0, 1, 0, 1, 1, 0, 0] (Program.main 2) = some p ∧
      p.thread 0 = .exited ∧ p.thread 1 = .exited := ⟨_, rfl, rfl, rfl⟩
  obtain ⟨p, hp, hzero, hone⟩ := hexec
  obtain ⟨trace, hrun⟩ := Run.nil.exec hp
  have hexited : ∀ t, p.thread t = .exited := Fin.forall_fin_two.mpr ⟨hzero, hone⟩
  obtain ⟨htotal, hurls, hreferers, _⟩ :=
    parallel_eq_sequential (by decide) hrun hexited Nat.one_pos
  exact ⟨trace, p, hrun, htotal.trans (by decide +kernel), hurls.trans (by decide +kernel),
    hreferers.trans (by decide +kernel)⟩

end CourseWork.LogParser
