import CourseWork.Lib.Snprintf
import CourseWork.WebServer.Request

/-!
# Directory listings

`generate_file_list` writes its page with one `snprintf` for the header, for each row and for
the footer. A row that does not fit is written as far as the space goes, and the footer is
written over it.
-/

namespace CourseWork.WebServer
open CLib

/-- What the function reads of a `struct stat`. -/
structure FileStat where
  isDir : Bool
  size : Nat
  mtime : Int

/-- What the function asks the system: the entries of a directory that can be opened, `stat`, and
the text of `strftime` for a time. The kernel refuses paths of `PATH_MAX` bytes, a name lies in
a record whose length is an `unsigned short`, and the text in an array of 64 bytes. -/
structure Directories where
  entries : Bytes → Option (List Bytes)
  stat : Bytes → Option FileStat
  timeText : Int → Bytes
  length_path : ∀ path names, entries path = some names → path.length < 4096
  length_name : ∀ path names, entries path = some names → ∀ name ∈ names, name.length < 65536
  length_time : ∀ mtime, (timeText mtime).length ≤ 64

/-! ## Texts -/

/-- The format of the header in front of its `%s`. -/
def headerStart : Bytes :=
  ascii "<!DOCTYPE html>\n<html>\n<head>\n    <title>Directory Listing</title>\n    <style>\n" ++
  ascii "        body \x7b font-family: Arial, sans-serif; margin: 40px; \x7d\n" ++
  ascii "        h1 \x7b color: #333; \x7d\n" ++
  ascii "        table \x7b border-collapse: collapse; width: 100%; \x7d\n" ++
  ascii "        th, td \x7b padding: 8px; text-align: left; border-bottom: 1px solid #ddd; \x7d\n" ++
  ascii "        tr:hover \x7b background-color: #f5f5f5; \x7d\n" ++
  ascii "        a \x7b text-decoration: none; color: #0066cc; \x7d\n" ++
  ascii "        a:hover \x7b text-decoration: underline; \x7d\n" ++
  ascii "        .size \x7b text-align: right; \x7d\n        .dir \x7b font-weight: bold; \x7d\n" ++
  ascii "    </style>\n</head>\n<body>\n    <h1>Directory Listing: "

/-- The format of the header behind its `%s`. -/
def headerEnd : Bytes :=
  ascii "</h1>\n    <table>\n        <tr>\n            <th>Name</th>\n" ++
  ascii "            <th>Size</th>\n            <th>Modified</th>\n        </tr>\n        <tr>\n" ++
  ascii "            <td><a href=\"../\">..</a></td>\n            <td class=\"size\">-</td>\n" ++
  ascii "            <td>-</td>\n        </tr>\n"

/-- The page up to the rows of the entries. -/
def pageHeader (dirPath : Bytes) : Bytes := headerStart ++ cstr dirPath ++ headerEnd

/-- `size_formatted`, an array of 32 bytes. -/
def sizeFormatted (st : FileStat) : Bytes :=
  if st.isDir then ascii "-"
  else if st.size < 1024 then (Numeral.print 10 st.size ++ ascii " B").take 31
  else if st.size < 1024 * 1024 then (printTenths (toDouble st.size) 1024 ++ ascii " KB").take 31
  else (printTenths (toDouble st.size) (1024 * 1024) ++ ascii " MB").take 31

/-- The row of an entry. -/
def pageRow (d : Directories) (name : Bytes) (st : FileStat) : Bytes :=
  ascii "        <tr>\n            <td class=\"" ++ (if st.isDir then ascii "dir" else []) ++
  ascii "\"><a href=\"" ++ cstr name ++ (if st.isDir then ascii "/" else []) ++ ascii "\">" ++
  cstr name ++ ascii "</a></td>\n            <td class=\"size\">" ++ sizeFormatted st ++
  ascii "</td>\n            <td>" ++ cstr (d.timeText st.mtime) ++ ascii "</td>\n        </tr>\n"

/-- The page behind the rows. -/
def pageFooter : Bytes := ascii "    </table>\n</body>\n</html>\n"

/-! ## The page -/

/-- `output`, `ptr` and `remaining`. -/
structure Page where
  mem : Bytes
  ptr : Nat
  remaining : Int

/-- An `snprintf` to `ptr`, and the test of what it has returned. A text that does not fit
leaves `ptr` where it was. -/
def Page.append (page : Page) (text : Bytes) : Option (Page × Bool) := do
  let (mem, written) ← snprintf page.mem page.ptr (sizeT page.remaining) text
  if written ≥ page.remaining then return ({ page with mem := mem }, false)
  else return (⟨mem, page.ptr + written, page.remaining - written⟩, true)

/-- The row of an entry, unless it is skipped. -/
def entryRow (d : Directories) (dirPath name : Bytes) : Option Bytes :=
  if cstr name = ascii "." ∨ cstr name = ascii ".." then none
  else
    let fullPath := (cstr dirPath ++ 47 :: cstr name).take (maxPathLen - 1)
    (d.stat fullPath).map (pageRow d name)

/-- The loop over `readdir`. -/
def listEntries (d : Directories) (dirPath : Bytes) : List Bytes → Page → Option Page
  | [], page => some page
  | name :: names, page =>
    match entryRow d dirPath name with
    | none => listEntries d dirPath names page
    | some row =>
      match page.append row with
      | none => none
      | some (page, true) => listEntries d dirPath names page
      | some (page, false) => some page

/-- `generate_file_list` behind `opendir`, with the texts around the rows. -/
def writePage (d : Directories) (dirPath header footer mem : Bytes) (maxSize : Nat)
    (names : List Bytes) : Option (Int × Bytes) :=
  match (Page.mk mem 0 (toInt maxSize)).append header with
  | none => none
  | some (page, false) => some (-1, page.mem)
  | some (page, true) =>
    match listEntries d dirPath names page with
    | none => none
    | some page =>
      match page.append footer with
      | none => none
      | some (page, fits) => some (if fits then 0 else -1, page.mem)

/-- `generate_file_list`: what it returns, and the memory at `output`. -/
def generateFileList (d : Directories) (dirPath mem : Bytes) (maxSize : Nat) :
    Option (Int × Bytes) :=
  match d.entries (cstr dirPath) with
  | none => some (-1, mem)
  | some names => writePage d dirPath (pageHeader dirPath) pageFooter mem maxSize names

/-- The memory holds a page of at most `maxSize` bytes with its NUL: the header, the rows of the
longest initial part of the entries whose rows each fit, and the footer. -/
def Listed (d : Directories) (dirPath mem : Bytes) (maxSize : Nat) : Prop :=
  ∃ names rows, d.entries (cstr dirPath) = some names ∧
    LongestFitting (maxSize - (pageHeader dirPath).length) (names.filterMap (entryRow d dirPath))
      rows ∧
    cstr mem = pageHeader dirPath ++ rows.flatten ++ pageFooter ∧ (cstr mem).length < maxSize

/-! ## Lengths -/

section Texts

variable {d : Directories} {dirPath : Bytes} {names : List Bytes}

theorem length_cstr_le (s : Bytes) : (cstr s).length ≤ s.length := (cstr_isPrefix s).length_le

theorem length_sizeFormatted_le (st : FileStat) : (sizeFormatted st).length ≤ 31 := by
  unfold sizeFormatted
  split
  · decide
  · split
    · exact List.length_take_le _ _
    · split
      · exact List.length_take_le _ _
      · exact List.length_take_le _ _

/-- The header of a directory that is opened. -/
theorem length_pageHeader_le (h : d.entries (cstr dirPath) = some names) :
    (pageHeader dirPath).length ≤ intMax := by
  have hpath := d.length_path _ _ h
  have hstart : headerStart.length ≤ 1000 := by
    unfold headerStart
    repeat rw [ascii_ofList]
    decide +kernel
  have hend : headerEnd.length ≤ 1000 := by
    unfold headerEnd
    repeat rw [ascii_ofList]
    decide +kernel
  have hmax : intMax = 2147483647 := rfl
  rw [pageHeader, List.length_append, List.length_append]
  omega

theorem length_pageFooter_le : pageFooter.length ≤ intMax := by
  rw [pageFooter, ascii_ofList]
  decide +kernel

theorem length_pageRow_le (name : Bytes) (st : FileStat) :
    (pageRow d name st).length ≤ 2 * name.length + 300 := by
  have hname := length_cstr_le name
  have hsize := length_sizeFormatted_le st
  have htime := (length_cstr_le _).trans (d.length_time st.mtime)
  have hclass : (if st.isDir then ascii "dir" else []).length ≤ 3 := by
    split <;> decide
  have hslash : (if st.isDir then ascii "/" else []).length ≤ 1 := by
    split <;> decide
  have hconst : (ascii "        <tr>\n            <td class=\"" ++ ascii "\"><a href=\"" ++
      ascii "\">" ++ ascii "</a></td>\n            <td class=\"size\">" ++
      ascii "</td>\n            <td>" ++ ascii "</td>\n        </tr>\n").length ≤ 150 := by
    repeat rw [ascii_ofList]
    decide +kernel
  simp only [List.length_append] at hconst
  simp only [pageRow, List.length_append]
  omega

/-- Every row of a directory that is opened. -/
theorem length_entryRow_le (h : d.entries (cstr dirPath) = some names) {name row : Bytes}
    (hname : name ∈ names) (hrow : entryRow d dirPath name = some row) : row.length ≤ intMax := by
  have hlen := d.length_name _ _ h name hname
  unfold entryRow at hrow
  split at hrow
  · cases hrow
  · obtain ⟨st, _, rfl⟩ := Option.map_eq_some_iff.mp hrow
    have hle := length_pageRow_le (d := d) name st
    have hmax : intMax = 2147483647 := rfl
    omega

/-! ## No NUL in the texts -/

theorem not_mem_pageHeader (dirPath : Bytes) : 0 ∉ pageHeader dirPath := by
  have hstart : 0 ∉ headerStart := by
    unfold headerStart
    repeat rw [ascii_ofList]
    decide +kernel
  have hend : 0 ∉ headerEnd := by
    unfold headerEnd
    repeat rw [ascii_ofList]
    decide +kernel
  rw [pageHeader, List.mem_append, List.mem_append, not_or, not_or]
  exact ⟨⟨hstart, not_mem_cstr dirPath⟩, hend⟩

theorem not_mem_printTenths (n d : Nat) : 0 ∉ printTenths n d := by
  have hdigits (k : Nat) : (0 : UInt8) ∉ Numeral.print 10 k := fun hmem =>
    absurd (Numeral.isDigit_of_mem_print (by decide) (by decide) hmem) (by decide)
  unfold printTenths
  simp only [List.mem_append, List.mem_cons, not_or]
  exact ⟨hdigits _, by decide, hdigits _⟩

theorem not_mem_sizeFormatted (st : FileStat) : 0 ∉ sizeFormatted st := by
  have hdigits : (0 : UInt8) ∉ Numeral.print 10 st.size := fun hmem =>
    absurd (Numeral.isDigit_of_mem_print (by decide) (by decide) hmem) (by decide)
  have hcut {s t : Bytes} (hs : 0 ∉ s) (ht : 0 ∉ t) : 0 ∉ (s ++ t).take 31 := fun hmem =>
    (List.mem_append.mp (List.mem_of_mem_take hmem)).elim hs ht
  unfold sizeFormatted
  split
  · decide
  · split
    · exact hcut hdigits (by decide)
    · split
      · exact hcut (not_mem_printTenths _ _) (by decide)
      · exact hcut (not_mem_printTenths _ _) (by decide)

theorem not_mem_pageRow (name : Bytes) (st : FileStat) : 0 ∉ pageRow d name st := by
  have hname := not_mem_cstr name
  have htime := not_mem_cstr (d.timeText st.mtime)
  have hsize := not_mem_sizeFormatted st
  have hclass : 0 ∉ if st.isDir then ascii "dir" else [] := by
    split <;> decide
  have hslash : 0 ∉ if st.isDir then ascii "/" else [] := by
    split <;> decide
  simp only [pageRow, List.mem_append, hname, htime, hsize, hclass, hslash, or_false]
  repeat rw [ascii_ofList]
  decide +kernel

/-- The page of some rows. -/
theorem not_mem_page {rows : List Bytes}
    (hrows : rows <+: names.filterMap (entryRow d dirPath)) :
    0 ∉ pageHeader dirPath ++ rows.flatten ++ pageFooter := by
  have hrow : 0 ∉ rows.flatten := by
    intro hmem
    obtain ⟨row, hrow, hnul⟩ := List.mem_flatten.mp hmem
    obtain ⟨name, _, hentry⟩ := List.mem_filterMap.mp (hrows.subset hrow)
    unfold entryRow at hentry
    split at hentry
    · cases hentry
    · obtain ⟨st, _, rfl⟩ := Option.map_eq_some_iff.mp hentry
      exact not_mem_pageRow name st hnul
  have hfooter : 0 ∉ pageFooter := by
    rw [pageFooter, ascii_ofList]
    decide +kernel
  rw [List.mem_append, List.mem_append, not_or, not_or]
  exact ⟨⟨not_mem_pageHeader dirPath, hrow⟩, hfooter⟩

end Texts

/-! ## Runs of the page -/

/-- The page holds the text, and counts what is left. -/
structure Page.Holds (start : Bytes) (size : Nat) (text : Bytes) (page : Page) : Prop where
  filled : Filled start size text page.mem
  ptr : page.ptr = text.length
  remaining : page.remaining = (size - text.length : Nat)

section Runs

variable {d : Directories} {dirPath start text new : Bytes} {size : Nat} {page : Page}

/-- A text is appended with its NUL if it fits, and does not change what is held otherwise. -/
theorem Page.Holds.append (h : page.Holds start size text) (hsize : size ≤ start.length)
    (hint : size ≤ intMax) (hnew : new.length ≤ intMax) :
    ∃ page', page.append new = some (page', decide (new.length < size - text.length)) ∧
      if new.length < size - text.length then
        page'.Holds start size (text ++ new) ∧ text ++ new ++ [0] <+: page'.mem
      else page'.Holds start size text := by
  obtain ⟨mem', hprint, hkept, hfits⟩ := h.filled.snprintf hsize hnew
  have hmax : intMax = 2147483647 := rfl
  rw [Page.append, h.ptr, h.remaining, sizeT_natCast (by omega), hprint]
  by_cases hlt : new.length < size - text.length
  · obtain ⟨hfilled, hnul⟩ := hfits hlt
    simp only [bind, Option.bind_some]
    rw [if_neg (by omega), decide_eq_true hlt]
    refine ⟨_, rfl, (if_pos hlt).mpr ⟨⟨hfilled, ?_, ?_⟩, hnul⟩⟩
    · exact List.length_append.symm
    · rw [List.length_append]
      dsimp only
      omega
  · simp only [bind, Option.bind_some]
    rw [if_pos (by omega), decide_eq_false hlt]
    exact ⟨_, rfl, (if_neg hlt).mpr ⟨hkept, rfl, rfl⟩⟩

/-- The loop appends the rows that fit. -/
theorem listEntries_holds (hsize : size ≤ start.length) (hint : size ≤ intMax)
    {names : List Bytes}
    (hrows : ∀ name ∈ names, ∀ row, entryRow d dirPath name = some row → row.length ≤ intMax)
    (h : page.Holds start size text) :
    ∃ page', listEntries d dirPath names page = some page' ∧
      page'.Holds start size (text ++
        (fitting (size - text.length) (names.filterMap (entryRow d dirPath))).flatten) := by
  induction names generalizing page text with
  | nil =>
    refine ⟨page, rfl, ?_⟩
    rw [List.filterMap_nil, fitting, List.flatten_nil, List.append_nil]
    exact h
  | cons name names ih =>
    have hrest : ∀ name ∈ names, ∀ row, entryRow d dirPath name = some row →
        row.length ≤ intMax := fun n hn => hrows n (List.mem_cons_of_mem _ hn)
    unfold listEntries
    cases hrow : entryRow d dirPath name with
    | none =>
      rw [List.filterMap_cons_none hrow]
      exact ih hrest h
    | some row =>
      obtain ⟨page', happend, hpage'⟩ :=
        h.append hsize hint (hrows name List.mem_cons_self row hrow)
      dsimp only
      rw [happend, List.filterMap_cons_some hrow, fitting]
      by_cases hlt : row.length < size - text.length
      · rw [if_pos hlt] at hpage' ⊢
        rw [decide_eq_true hlt, List.flatten_cons, ← List.append_assoc]
        have hnext := ih hrest hpage'.1
        rw [List.length_append, ← Nat.sub_sub] at hnext
        exact hnext
      · rw [if_neg hlt] at hpage' ⊢
        rw [decide_eq_false hlt, List.flatten_nil, List.append_nil]
        exact ⟨page', rfl, hpage'⟩

/-- Behind the header, the function returns 0 exactly if the footer fits, and then the memory
holds the whole page. -/
theorem footer_holds {rows : List Bytes} {header : Bytes} (hsize : size ≤ start.length)
    (hint : size ≤ intMax) (hfooter : new.length ≤ intMax)
    (hnul : 0 ∉ header ++ rows.flatten ++ new)
    (h : page.Holds start size (header ++ rows.flatten)) :
    ∃ page' fits, page.append new = some (page', fits) ∧ page'.mem.length = start.length ∧
      page'.mem.drop size = start.drop size ∧
        (fits = true → cstr page'.mem = header ++ rows.flatten ++ new ∧
          (header ++ rows.flatten ++ new).length < size) := by
  obtain ⟨page', happend, hpage'⟩ := h.append hsize hint hfooter
  refine ⟨page', _, happend, ?_⟩
  split at hpage'
  · next hlt =>
    obtain ⟨hheld, rest, hrest⟩ := hpage'
    refine ⟨hheld.filled.length, hheld.filled.behind, fun _ => ⟨?_, ?_⟩⟩
    · rw [← hrest, List.append_assoc, List.singleton_append]
      exact cstr_append_nul hnul rest
    · rw [List.length_append]
      omega
  · next hlt =>
    refine ⟨hpage'.filled.length, hpage'.filled.behind, fun hfits => ?_⟩
    exact absurd (of_decide_eq_true hfits) hlt

/-- The body of the function. Of the texts around the rows only their lengths matter, and that
the page has no NUL. -/
theorem writePage_holds {header footer : Bytes} {names : List Bytes} (hint : size ≤ intMax)
    (hsize : size ≤ start.length) (hheader : header.length ≤ intMax)
    (hfooter : footer.length ≤ intMax)
    (hrow : ∀ name ∈ names, ∀ row, entryRow d dirPath name = some row → row.length ≤ intMax)
    (hnul : ∀ rows, rows <+: names.filterMap (entryRow d dirPath) →
      0 ∉ header ++ rows.flatten ++ footer) :
    ∃ result mem', writePage d dirPath header footer start size names = some (result, mem') ∧
      mem'.length = start.length ∧ mem'.drop size = start.drop size ∧
        (result = 0 → ∃ rows,
          LongestFitting (size - header.length) (names.filterMap (entryRow d dirPath)) rows ∧
            cstr mem' = header ++ rows.flatten ++ footer ∧ (cstr mem').length < size) := by
  have hstart : Page.Holds start size [] ⟨start, 0, size⟩ := ⟨Filled.nil start size, rfl, rfl⟩
  obtain ⟨page₁, happend₁, hpage₁⟩ := hstart.append hsize hint hheader
  rw [List.length_nil, Nat.sub_zero] at happend₁ hpage₁
  rw [List.nil_append] at hpage₁
  rw [writePage, toInt_of_le hint, happend₁]
  by_cases hfits : header.length < size
  · rw [if_pos hfits] at hpage₁
    rw [decide_eq_true hfits]
    obtain ⟨page₂, hlist, hpage₂⟩ := listEntries_holds hsize hint hrow hpage₁.1
    have hrows := longestFitting_fitting (size - header.length)
      (names.filterMap (entryRow d dirPath))
    obtain ⟨page₃, fits, happend₃, hlength, hbehind, hpage₃⟩ :=
      footer_holds hsize hint hfooter (hnul _ hrows.initial) hpage₂
    dsimp only
    rw [hlist]
    dsimp only
    rw [happend₃]
    refine ⟨_, _, rfl, hlength, hbehind, fun hzero => ?_⟩
    cases fits with
    | true =>
      obtain ⟨htext, hlt⟩ := hpage₃ rfl
      exact ⟨_, hrows, htext, htext ▸ hlt⟩
    | false => cases hzero
  · rw [if_neg hfits] at hpage₁
    rw [decide_eq_false hfits]
    exact ⟨-1, _, rfl, hpage₁.filled.length, hpage₁.filled.behind, nofun⟩

/-- For a size that is an `int`, the function writes into the first `maxSize` bytes only, and
when it returns 0 they hold the page. -/
theorem generateFileList_listed (d : Directories) (dirPath mem : Bytes) (maxSize : Nat)
    (hint : maxSize ≤ intMax) (hmem : maxSize ≤ mem.length) :
    ∃ result mem', generateFileList d dirPath mem maxSize = some (result, mem') ∧
      mem'.length = mem.length ∧ mem'.drop maxSize = mem.drop maxSize ∧
        (result = 0 → Listed d dirPath mem' maxSize) := by
  unfold generateFileList
  cases hentries : d.entries (cstr dirPath) with
  | none => exact ⟨-1, mem, rfl, rfl, rfl, nofun⟩
  | some names =>
    obtain ⟨result, mem', hwrite, hlength, hbehind, hpage⟩ := writePage_holds hint hmem
      (length_pageHeader_le hentries) length_pageFooter_le
      (fun name hname row => length_entryRow_le hentries hname) (fun rows => not_mem_page)
    refine ⟨result, mem', hwrite, hlength, hbehind, fun hzero => ?_⟩
    obtain ⟨rows, hrows, htext, hlt⟩ := hpage hzero
    exact ⟨names, rows, hentries, hrows, htext, hlt⟩

end Runs

/-- A file and a directory in `/srv`. -/
def twoEntries : Directories where
  entries path := if path = ascii "/srv" then some [ascii ".", ascii "a.txt", ascii "b"] else none
  stat path := some ⟨path = ascii "/srv/b", 1280, 0⟩
  timeText _ := ascii "1970-01-01 00:00:00"
  length_path path names h := by
    split at h
    · next heq =>
      rw [heq]
      decide
    · cases h
  length_name path names h := by
    split at h
    · cases h
      decide
    · cases h
  length_time _ := by decide

/-- A buffer in which the second row does not fit. -/
theorem generateFileList_listed_two :
    ∃ result mem', generateFileList twoEntries (ascii "/srv") (List.replicate 1100 120) 1100 =
      some (result, mem') ∧ mem'.length = (List.replicate 1100 (120 : UInt8)).length ∧
        mem'.drop 1100 = (List.replicate 1100 120).drop 1100 ∧
          (result = 0 → Listed twoEntries (ascii "/srv") mem' 1100) :=
  generateFileList_listed twoEntries (ascii "/srv") (List.replicate 1100 120) 1100 (by decide)
    (by rw [List.length_replicate])

end CourseWork.WebServer
