import CourseWork.LogParser.Parser

/-!
# What the tables of the log parser hold

The tables and the total of a thread, and the shared ones, aggregate a list of parsed
lines. Processing a file adds its lines, and merging adds the lines of the other side.
-/

namespace CourseWork.LogParser
open CLib HashTable

/-! ## Parsed lines -/

/-- A line that the tables do not leave out. -/
structure LogLine.WellFormed (r : LogLine) : Prop where
  url : r.url ≠ []
  referer : ∀ referer, r.referer = some referer → referer ≠ [] ∧ referer ≠ ascii "-"

theorem parseBytes_wellFormed {url p : Bytes} {r : LogLine} (hurl : url ≠ [])
    (h : parseBytes url p = some r) : r.WellFormed := by
  simp only [parseBytes] at h
  split at h
  · cases h
    exact ⟨hurl, nofun⟩
  · split at h
    · cases h
    · split at h
      · cases h
        exact ⟨hurl, nofun⟩
      · next hdash =>
        cases h
        refine ⟨hurl, ?_⟩
        rintro referer ⟨⟩
        -- Neither the empty string nor a dash has another byte than dashes.
        refine ⟨fun hnil => hdash ?_, fun hone => hdash ?_⟩
        · rw [hnil]
          rfl
        · rw [hone]
          rfl

theorem parseLogLine_wellFormed {line : Bytes} {r : LogLine} (h : parseLogLine line = some r) :
    r.WellFormed := by
  simp only [parseLogLine] at h
  split at h
  · cases h
  · split at h
    · cases h
    · split at h
      · cases h
      · split at h
        · cases h
        · next hurl =>
          split at h
          · cases h
          · exact parseBytes_wellFormed hurl h

/-- What the loop of `process_file` finds in a line. -/
def parsed (line : Bytes) : Option LogLine :=
  if line.length ≤ 1 then none else parseLogLine (chomp line)

theorem parsed_wellFormed {line : Bytes} {r : LogLine} (h : parsed line = some r) :
    r.WellFormed := by
  rw [parsed] at h
  split at h
  · cases h
  · exact parseLogLine_wellFormed h

theorem processLine_eq (data : ThreadData) (line : Bytes) :
    processLine data line = (parsed line).elim data (account · data) := by
  rw [processLine, parsed]
  split
  · rfl
  · cases parseLogLine (chomp line) with
    | none => rfl
    | some r => rfl

/-- The lines of a file that are accounted. -/
def fileLines (file : File) : List LogLine :=
  match file with
  | none => []
  | some content => (getLines content).filterMap parsed

/-! ## Contributions -/

/-- What the lines add to the URLs. -/
def urlEntries (rs : List LogLine) : List (Bytes × Int) := rs.map fun r => (r.url, r.bytes)

/-- What the lines add to the referers. -/
def refererEntries (rs : List LogLine) : List (Bytes × Nat) :=
  rs.filterMap fun r => r.referer.map fun referer => (referer, 1)

theorem urlEntries_append (rs rs' : List LogLine) :
    urlEntries (rs ++ rs') = urlEntries rs ++ urlEntries rs' := List.map_append

theorem refererEntries_append (rs rs' : List LogLine) :
    refererEntries (rs ++ rs') = refererEntries rs ++ refererEntries rs' := List.filterMap_append

/-- The tables and the total aggregate the lines. -/
structure Aggregates (urlTable : UrlHashTable) (refererTable : RefererHashTable) (total : Int)
    (rs : List LogLine) : Prop where
  wellFormed : ∀ r ∈ rs, r.WellFormed
  urls_valid : urlTable.Valid hash
  urls : ∀ url, urlTable.get hash url = tally (urlEntries rs) url
  referers_valid : refererTable.Valid hash
  referers : ∀ referer, refererTable.get hash referer = tally (refererEntries rs) referer
  total_eq : total = (rs.map LogLine.bytes).sum
  urls_sum : (urlTable.entries.map Prod.snd).sum = total

section Aggregates

variable {urlTable urlTable' : UrlHashTable} {refererTable refererTable' : RefererHashTable}
  {total total' : Int} {rs rs' : List LogLine}

theorem aggregates_create {size : Nat} (h : 0 < size) :
    Aggregates (Table.create size) (Table.create size) 0 [] := by
  refine ⟨nofun, Table.valid_create h, Table.get_create size, Table.valid_create h,
    Table.get_create size, rfl, ?_⟩
  rw [Table.entries, Table.create, List.flatten_replicate_nil]
  rfl

/-- Only the lines count, in any order. -/
theorem Aggregates.unique (h : Aggregates urlTable refererTable total rs)
    (h' : Aggregates urlTable' refererTable' total' rs') (hperm : rs.Perm rs') :
    total = total' ∧ (∀ url, urlTable.get hash url = urlTable'.get hash url) ∧
      ∀ referer, refererTable.get hash referer = refererTable'.get hash referer := by
  refine ⟨?_, fun url => ?_, fun referer => ?_⟩
  · rw [h.total_eq, h'.total_eq, (hperm.map LogLine.bytes).sum_eq]
  · rw [h.urls, h'.urls]
    exact tally_perm (hperm.map _) url
  · rw [h.referers, h'.referers]
    exact tally_perm (hperm.filterMap _) referer

/-- The URLs of a table are not empty. -/
theorem Aggregates.url_ne_nil (h : Aggregates urlTable refererTable total rs) :
    ∀ e ∈ urlTable.entries, e.1 ≠ [] := by
  intro e he
  have hget := h.urls_valid.get_eq_some.mpr he
  rw [h.urls] at hget
  obtain ⟨e', he', hkey⟩ := List.mem_map.mp (mem_of_tally_eq_some hget)
  obtain ⟨r, hr, rfl⟩ := List.mem_map.mp he'
  rw [← hkey]
  exact (h.wellFormed r hr).url

/-- The referers of a table can be counted again, and have been counted. -/
theorem Aggregates.referer_counted (h : Aggregates urlTable refererTable total rs) :
    ∀ e ∈ refererTable.entries, (e.1 ≠ [] ∧ e.1 ≠ ascii "-") ∧ 0 < e.2 := by
  intro e he
  have hget := h.referers_valid.get_eq_some.mpr he
  rw [h.referers] at hget
  obtain ⟨e', he', hkey⟩ := List.mem_map.mp (mem_of_tally_eq_some hget)
  obtain ⟨r, hr, hmap⟩ := List.mem_filterMap.mp he'
  obtain ⟨referer, hreferer, rfl⟩ := Option.map_eq_some_iff.mp hmap
  refine ⟨?_, ?_⟩
  · rw [← hkey]
    exact (h.wellFormed r hr).referer referer hreferer
  · refine tally_pos (fun e he => ?_) hget
    obtain ⟨r, _, hmap⟩ := List.mem_filterMap.mp he
    obtain ⟨_, _, rfl⟩ := Option.map_eq_some_iff.mp hmap
    exact Nat.one_pos

/-! ## Adding -/

theorem updateUrlTable_eq {url : Bytes} (h : url ≠ []) (table : UrlHashTable) (bytes : Int) :
    updateUrlTable table url bytes = table.update hash url bytes := if_neg h

theorem updateRefererTable_eq {referer : Bytes} (h : referer ≠ [] ∧ referer ≠ ascii "-")
    (table : RefererHashTable) :
    updateRefererTable table referer = table.update hash referer 1 :=
  if_neg (not_or.mpr h)

theorem Aggregates.account {data : ThreadData} {r : LogLine}
    (h : Aggregates data.urlTable data.refererTable data.threadTotalBytes rs) (hr : r.WellFormed) :
    Aggregates (account r data).urlTable (account r data).refererTable
      (account r data).threadTotalBytes (rs ++ [r]) := by
  have hurl : (LogParser.account r data).urlTable = data.urlTable.update hash r.url r.bytes := by
    rw [LogParser.account]
    dsimp only
    rw [if_pos hr.url, updateUrlTable_eq hr.url]
  have hreferer : (LogParser.account r data).refererTable =
      data.refererTable.addAll hash (refererEntries [r]) := by
    rw [LogParser.account]
    dsimp only
    cases hr' : r.referer with
    | none =>
      rw [refererEntries, List.filterMap_cons_none (by rw [hr', Option.map_none])]
      rfl
    | some referer =>
      have hne := hr.referer referer hr'
      rw [refererEntries, List.filterMap_cons_some (by rw [hr', Option.map_some])]
      dsimp only
      rw [if_pos hne.1, updateRefererTable_eq hne]
      rfl
  rw [hurl, hreferer]
  refine ⟨?_, h.urls_valid.update _ _, fun url => ?_, h.referers_valid.addAll _,
    fun referer => ?_, ?_, ?_⟩
  · exact List.forall_mem_append.mpr ⟨h.wellFormed, List.forall_mem_singleton.mpr hr⟩
  · rw [h.urls_valid.get_update, h.urls, urlEntries_append, tally_append]
    rfl
  · rw [h.referers_valid.get_addAll, h.referers, refererEntries_append, tally_append]
  · rw [List.map_append, List.sum_append, ← h.total_eq, List.map_singleton, List.sum_singleton]
    rfl
  · rw [h.urls_valid.sum_update, h.urls_sum]
    rfl

theorem Aggregates.processFile {data : ThreadData}
    (h : Aggregates data.urlTable data.refererTable data.threadTotalBytes rs) (file : File) :
    Aggregates (processFile file data).urlTable (processFile file data).refererTable
      (processFile file data).threadTotalBytes (rs ++ fileLines file) := by
  cases file with
  | none =>
    rw [fileLines, List.append_nil]
    exact h
  | some content =>
    rw [LogParser.processFile, fileLines]
    induction getLines content generalizing data rs with
    | nil =>
      rw [List.filterMap_nil, List.append_nil]
      exact h
    | cons line lines ih =>
      rw [List.foldl_cons, processLine_eq]
      cases hparsed : parsed line with
      | none =>
        rw [List.filterMap_cons_none hparsed]
        exact ih h
      | some r =>
        have hlines := ih (h.account (parsed_wellFormed hparsed))
        rw [List.append_assoc, List.singleton_append] at hlines
        rw [List.filterMap_cons_some hparsed]
        exact hlines

/-! ## Merging -/

theorem mergeUrlTables_eq {src : UrlHashTable} (h : ∀ e ∈ src.entries, e.1 ≠ [])
    (dst : UrlHashTable) : mergeUrlTables src dst = dst.addAll hash src.entries := by
  rw [mergeUrlTables, ← List.foldl_flatten]
  change src.entries.foldl _ dst = src.entries.foldl _ dst
  generalize src.entries = entries at h ⊢
  induction entries generalizing dst with
  | nil => rfl
  | cons e entries ih =>
    obtain ⟨he, hrest⟩ := List.forall_mem_cons.mp h
    rw [List.foldl_cons, List.foldl_cons, updateUrlTable_eq he, ih _ hrest]

theorem updateRepeatedly_eq {referer : Bytes} (h : referer ≠ [] ∧ referer ≠ ascii "-")
    (dst : RefererHashTable) (count : Nat) :
    updateRepeatedly dst referer count =
      dst.addAll hash (List.replicate count (referer, 1)) := by
  induction count generalizing dst with
  | zero => rfl
  | succ count ih =>
    rw [updateRepeatedly, updateRefererTable_eq h, ih]
    rfl

theorem mergeRefererTables_eq {src : RefererHashTable}
    (h : ∀ e ∈ src.entries, e.1 ≠ [] ∧ e.1 ≠ ascii "-") (dst : RefererHashTable) :
    mergeRefererTables src dst =
      dst.addAll hash (src.entries.flatMap fun e => List.replicate e.2 (e.1, 1)) := by
  rw [mergeRefererTables, ← List.foldl_flatten]
  change src.entries.foldl _ dst = _
  generalize src.entries = entries at h ⊢
  induction entries generalizing dst with
  | nil => rfl
  | cons e entries ih =>
    obtain ⟨he, hrest⟩ := List.forall_mem_cons.mp h
    rw [List.foldl_cons, updateRepeatedly_eq he, ih _ hrest, List.flatMap_cons, Table.addAll,
      Table.addAll, Table.addAll, List.foldl_append]

/-- Merging adds what the other tables aggregate. -/
theorem Aggregates.merge (h : Aggregates urlTable refererTable total rs)
    (h' : Aggregates urlTable' refererTable' total' rs') :
    Aggregates (mergeUrlTables urlTable' urlTable) (mergeRefererTables refererTable' refererTable)
      (total + total') (rs ++ rs') := by
  have hcounted := h'.referer_counted
  rw [mergeUrlTables_eq h'.url_ne_nil, mergeRefererTables_eq fun e he => (hcounted e he).1]
  refine ⟨List.forall_mem_append.mpr ⟨h.wellFormed, h'.wellFormed⟩, h.urls_valid.addAll _,
    fun url => ?_, h.referers_valid.addAll _, fun referer => ?_, ?_, ?_⟩
  · rw [h.urls_valid.get_addAll, h'.urls_valid.tally_entries, h.urls, h'.urls, urlEntries_append,
      tally_append]
  · rw [h.referers_valid.get_addAll, tally_flatMap_replicate fun e he => (hcounted e he).2,
      h'.referers_valid.tally_entries, h.referers, h'.referers, refererEntries_append, tally_append]
  · rw [List.map_append, List.sum_append, ← h.total_eq, ← h'.total_eq]
  · rw [h.urls_valid.sum_addAll, h.urls_sum, h'.urls_sum]

end Aggregates

end CourseWork.LogParser
