import CourseWork.Lib.Sha1
import CourseWork.Torrent.Storage

/-!
# The paths of the extracted files

Which torrents make `storage_open` leave the directory it is given. The path elements
of a torrent are joined as they are, so the answer is in the joined text, as far as it
fits the buffer.
-/

namespace CourseWork.Torrent
open CLib Bencode

/-! ## Containment -/

/-- The component `..`. -/
def dotDot : Bytes := [46, 46]

/-- The path is `dir`, a slash, and components none of which is `..`. -/
def Inside (dir path : Bytes) : Prop :=
  ∃ rest, path = dir ++ 47 :: rest ∧ dotDot ∉ rest.splitOn 47

/-- The path is `dir` itself or a directory that it lies in. -/
def Leads (dir path : Bytes) : Prop :=
  path = dir ∨ ∃ rest, dir = path ++ 47 :: rest

/-- A file may be opened inside of `dir`. A directory may be made there, or on the way
to `dir`. -/
def Contained (dir : Bytes) : FsCall → Prop
  | .mkdir path => Inside dir path ∨ Leads dir path
  | .fopen path => Inside dir path

/-- Whatever the file system answers, `storage_open` stays in its buffers and in `dir`. -/
def StaysInside (cfg : Config) (dir : Bytes) (tor : TorrentT) : Prop :=
  ∀ fs, (storageOpen fs cfg tor).1 ≠ .undefined ∧
    ∀ call ∈ (storageOpen fs cfg tor).2, Contained dir call

/-- A directory that a contained path lies in is contained. -/
theorem contained_mkdir {dir path q r : Bytes} (h : Inside dir path) (hq : path = q ++ 47 :: r) :
    Contained dir (.mkdir q) := by
  obtain ⟨rest, hpath, hrest⟩ := h
  rw [hpath] at hq
  rcases List.append_eq_append_iff.mp hq with ⟨m, hqm, hm⟩ | ⟨m, hdm, hm⟩
  · cases m with
    | nil => exact .inr (.inl (by rw [hqm, List.append_nil]))
    | cons c m =>
      have hm' : 47 :: rest = c :: (m ++ 47 :: r) := hm
      obtain ⟨rfl, hrest'⟩ := List.cons_eq_cons.mp hm'
      refine .inl ⟨m, hqm, fun hmem => hrest ?_⟩
      rw [hrest', List.splitOn_append_cons_self]
      exact List.mem_append_left _ hmem
  · cases m with
    | nil => exact .inr (.inl (by rw [hdm, List.append_nil]))
    | cons c m =>
      obtain ⟨rfl, _⟩ := List.cons_eq_cons.mp hm
      exact .inr (.inr ⟨m, hdm⟩)

/-! ## The joined path -/

/-- The elements of a path with slashes between them, as far as they fit behind `dir`. -/
def keptPath (dir : Bytes) (path : List Bytes) : Bytes :=
  ([47].intercalate path).take (pathLen - 2 - dir.length)

theorem strncat_eq {p s : Bytes} (h : p.length ≤ pathLen - 1) :
    strncat p s = (p ++ s).take (pathLen - 1) := by
  rw [strncat, List.take_append, List.take_of_length_le h, Nat.sub_right_comm]

theorem length_strncat_le {p s : Bytes} (h : p.length ≤ pathLen - 1) :
    (strncat p s).length ≤ pathLen - 1 := by
  rw [strncat_eq h]
  exact List.length_take_le _ _

theorem take_take_append (n : Nat) (l t : Bytes) : (l.take n ++ t).take n = (l ++ t).take n := by
  rw [List.take_append, List.take_append, List.take_take, Nat.min_self, List.length_take]
  congr 2
  omega

/-- Appending twice is appending once. -/
theorem strncat_strncat {p s t : Bytes} (h : p.length ≤ pathLen - 1) :
    strncat (strncat p s) t = strncat p (s ++ t) := by
  rw [strncat_eq (length_strncat_le h), strncat_eq h, strncat_eq h, take_take_append,
    List.append_assoc]

theorem appendPath_eq : ∀ {path : List Bytes} {p : Bytes}, p.length ≤ pathLen - 1 →
    appendPath p path = strncat p ([47].intercalate path)
  | [], p, _ => by
    rw [appendPath, List.intercalate_nil, strncat, List.take_nil, List.append_nil]
  | [s], p, _ => by rw [appendPath, List.intercalate_singleton]
  | s :: s' :: path, p, h => by
    have hs := length_strncat_le (s := s) h
    rw [appendPath, appendPath_eq (length_strncat_le hs), strncat_strncat hs, strncat_strncat h,
      List.intercalate_cons_cons]
    rw [List.append_assoc]
    exact fun hnil => nomatch hnil

/-- The path that is opened, for a directory that fits. -/
theorem fullPath_eq {dir : Bytes} {path : List Bytes} (h : dir.length < pathLen - 1) :
    fullPath (some dir) path = dir ++ 47 :: keptPath dir path := by
  have hslash : strncat dir [47] = dir ++ [47] := by
    rw [strncat, List.take_of_length_le (by simp only [List.length_singleton]; omega)]
  have hlen : (dir ++ [47]).length = dir.length + 1 := List.length_append
  rw [fullPath, List.take_of_length_le (by omega), hslash, appendPath_eq (by omega), strncat,
    hlen, keptPath, List.append_assoc, Nat.sub_sub, Nat.sub_sub, Nat.add_comm 2,
    Nat.add_assoc]
  rfl

/-- A longer directory leaves no room for the slash. -/
theorem length_fullPath_le (dir : Bytes) (path : List Bytes) :
    (fullPath (some dir) path).length ≤ pathLen - 1 := by
  have hdir : (dir.take (pathLen - 1)).length ≤ pathLen - 1 := List.length_take_le _ _
  rw [fullPath, appendPath_eq (length_strncat_le hdir)]
  exact length_strncat_le (length_strncat_le hdir)

/-- The opened path is contained exactly when the directory fits and what is kept of the
joined elements has no component `..`. -/
theorem inside_fullPath_iff {dir : Bytes} {path : List Bytes} :
    Inside dir (fullPath (some dir) path) ↔
      dir.length < pathLen - 1 ∧ dotDot ∉ (keptPath dir path).splitOn 47 := by
  constructor
  · rintro ⟨rest, hpath, hrest⟩
    have hlt : dir.length < pathLen - 1 := by
      have hlen := length_fullPath_le dir path
      rw [hpath, List.length_append, List.length_cons] at hlen
      omega
    rw [fullPath_eq hlt] at hpath
    obtain rfl := (List.cons_eq_cons.mp (List.append_cancel_left hpath)).2
    exact ⟨hlt, hrest⟩
  · rintro ⟨hlt, hrest⟩
    exact ⟨_, fullPath_eq hlt, hrest⟩

/-! ## The calls -/

theorem dirName_eq_none_iff : ∀ (path : Bytes), dirName path = none ↔ 47 ∉ path
  | [] => by simp [dirName]
  | c :: path => by
    have ih := dirName_eq_none_iff path
    rw [dirName, List.mem_cons]
    cases hdir : dirName path with
    | none =>
      have := ih.mp hdir
      by_cases hc : c = 47
      · simp [hc]
      · simp [hc, this, Ne.symm hc]
    | some dir =>
      have hmem : 47 ∈ path := by
        by_contra hno
        rw [ih.mpr hno] at hdir
        exact nomatch hdir
      simp [hmem]

theorem dirName_append {path dir : Bytes} (h : dirName path = some dir) :
    ∃ base, path = dir ++ 47 :: base := by
  induction path generalizing dir with
  | nil => exact nomatch h
  | cons c path ih =>
    rw [dirName] at h
    split at h
    · next d hd =>
      obtain ⟨base, hbase⟩ := ih hd
      cases h
      exact ⟨base, by rw [hbase]; rfl⟩
    · split at h
      · next hc =>
        cases h
        exact ⟨path, by rw [hc]; rfl⟩
      · exact nomatch h

/-- The directory of a path is empty when its only slash comes first. -/
theorem dirName_eq_nil_iff {path : Bytes} :
    dirName path = some [] ↔ ∃ base, path = 47 :: base ∧ 47 ∉ base := by
  constructor
  · intro h
    obtain ⟨base, rfl⟩ := dirName_append h
    refine ⟨base, rfl, ?_⟩
    rw [List.nil_append, dirName] at h
    split at h
    · exact nomatch h
    · next hd => exact (dirName_eq_none_iff _).mp hd
  · rintro ⟨base, rfl, hbase⟩
    rw [dirName, (dirName_eq_none_iff _).mpr hbase]
    rfl

/-- The calls of `mkdir_p`: directories on the way to the last one. -/
theorem mkdirWalk_calls (fs : Fs) : ∀ (p : Bytes) (calls : List FsCall) (tmp : Bytes),
    (mkdirWalk fs calls tmp p).1 ≠ .undefined ∧
    (∀ call ∈ (mkdirWalk fs calls tmp p).2,
      call ∈ calls ∨ ∃ q r, call = .mkdir q ∧ tmp ++ p ++ [47] = q ++ 47 :: r) ∧
    ∀ call ∈ calls, call ∈ (mkdirWalk fs calls tmp p).2
  | [], calls, tmp => by
    rw [mkdirWalk]
    refine ⟨?_, fun call hcall => ?_, fun call hcall => List.mem_append_left _ hcall⟩
    · dsimp only
      split <;> exact nofun
    · rcases List.mem_append.mp hcall with hcall | hcall
      · exact .inl hcall
      · exact .inr ⟨tmp, [], List.mem_singleton.mp hcall, by rw [List.append_nil]⟩
  | c :: p, calls, tmp => by
    have htext : tmp ++ c :: p ++ [47] = tmp ++ [c] ++ p ++ [47] := by simp
    rw [mkdirWalk, htext]
    split
    · next hc =>
      dsimp only
      -- At a slash the prefix in front of it is made.
      have hnew : ∀ call ∈ calls ++ [FsCall.mkdir tmp], call ∈ calls ∨
          ∃ q r, call = .mkdir q ∧ tmp ++ [c] ++ p ++ [47] = q ++ 47 :: r := by
        intro call hcall
        rcases List.mem_append.mp hcall with hcall | hcall
        · exact .inl hcall
        · exact .inr ⟨tmp, p ++ [47], List.mem_singleton.mp hcall, by rw [hc]; simp⟩
      split
      · obtain ⟨hdef, hcalls, hold⟩ := mkdirWalk_calls fs p (calls ++ [.mkdir tmp]) (tmp ++ [c])
        refine ⟨hdef, fun call hcall => ?_, fun call hcall =>
          hold call (List.mem_append_left _ hcall)⟩
        rcases hcalls call hcall with hcall | hcall
        · exact hnew call hcall
        · exact .inr hcall
      · exact ⟨nofun, hnew, fun call hcall => List.mem_append_left _ hcall⟩
    · exact mkdirWalk_calls fs p calls (tmp ++ [c])

/-- The directories made for a file are on the way to it. -/
theorem makeDirs_calls (fs : Fs) (calls : List FsCall) {path : Bytes}
    (h : dirName path ≠ some []) :
    (makeDirs fs calls path).1 ≠ .undefined ∧
    (∀ call ∈ (makeDirs fs calls path).2,
      call ∈ calls ∨ ∃ q r, call = .mkdir q ∧ path = q ++ 47 :: r) ∧
    ∀ call ∈ calls, call ∈ (makeDirs fs calls path).2 := by
  unfold makeDirs
  split
  · next dir hdir =>
    obtain ⟨base, rfl⟩ := dirName_append hdir
    have hne : dir ≠ [] := by
      rintro rfl
      exact h hdir
    rw [mkdirP, if_neg hne]
    dsimp only
    obtain ⟨tail, htail⟩ : ∃ tail, dir ++ 47 :: base =
        (if dir.getLast? = some 47 then dir.dropLast else dir) ++ 47 :: tail := by
      split
      · next hlast =>
        have hsplit := List.dropLast_append_getLast? 47 hlast
        exact ⟨47 :: base, by rw [List.append_cons dir.dropLast, hsplit]⟩
      · exact ⟨base, rfl⟩
    generalize (if dir.getLast? = some 47 then dir.dropLast else dir) = tmp at htail ⊢
    obtain ⟨hdef, hcalls, hold⟩ := mkdirWalk_calls fs (tmp.drop 1) calls (tmp.take 1)
    refine ⟨hdef, fun call hcall => ?_, hold⟩
    rcases hcalls call hcall with hcall | ⟨q, r, rfl, hq⟩
    · exact .inl hcall
    · refine .inr ⟨q, r ++ tail, rfl, ?_⟩
      rw [List.take_append_drop] at hq
      rw [htail, List.append_cons, hq]
      simp
  · exact ⟨nofun, fun _ hcall => .inl hcall, fun _ hcall => hcall⟩

/-! ## All files -/

/-- The loop of `storage_open` only makes contained calls if all paths are contained. -/
theorem openFiles_contained (fs : Fs) {dir : Bytes} : ∀ (tfs : List FileT)
    (calls : List FsCall) (o : UInt64),
    (∀ tf ∈ tfs, Inside dir (fullPath (some dir) tf.path)) →
    (∀ tf ∈ tfs, dirName (fullPath (some dir) tf.path) ≠ some []) →
    (∀ call ∈ calls, Contained dir call) →
    (openFiles fs (some dir) calls o tfs).1 ≠ .undefined ∧
      ∀ call ∈ (openFiles fs (some dir) calls o tfs).2, Contained dir call
  | [], calls, o, _, _, hcalls => ⟨nofun, hcalls⟩
  | tf :: tfs, calls, o, hin, hdef, hcalls => by
    have hpath := hin tf List.mem_cons_self
    obtain ⟨hmade, hnew, _⟩ := makeDirs_calls fs calls (hdef tf List.mem_cons_self)
    have hdirs : ∀ call ∈ (makeDirs fs calls (fullPath (some dir) tf.path)).2,
        Contained dir call := by
      intro call hcall
      rcases hnew call hcall with hcall | ⟨q, r, rfl, hq⟩
      · exact hcalls call hcall
      · exact contained_mkdir hpath hq
    rw [openFiles]
    dsimp only
    -- First the directories: undefined, failed, or made.
    split
    · next heq =>
      rw [heq] at hmade
      exact absurd rfl hmade
    · next heq =>
      rw [heq] at hdirs
      exact ⟨nofun, hdirs⟩
    · next calls1 heq =>
      rw [heq] at hdirs
      have hopen : ∀ call ∈ calls1 ++ [FsCall.fopen (fullPath (some dir) tf.path)],
          Contained dir call := by
        intro call hcall
        rcases List.mem_append.mp hcall with hcall | hcall
        · exact hdirs call hcall
        · rw [List.mem_singleton.mp hcall]
          exact hpath
      -- Then the file, and only if it opens the files after it.
      split
      · exact ⟨nofun, hopen⟩
      · have hrest := openFiles_contained fs tfs _ (o + tf.length)
          (fun tf' h => hin tf' (List.mem_cons_of_mem _ h))
          (fun tf' h => hdef tf' (List.mem_cons_of_mem _ h)) hopen
        split
        · next heq' =>
          rw [heq'] at hrest
          exact ⟨nofun, hrest.2⟩
        · next heq' =>
          rw [heq'] at hrest
          exact ⟨nofun, hrest.2⟩
        · next heq' =>
          rw [heq'] at hrest
          exact absurd rfl hrest.1

theorem mkdirWalk_reliable : ∀ (p : Bytes) (calls : List FsCall) (tmp : Bytes),
    (mkdirWalk .reliable calls tmp p).1 = .created
  | [], _, _ => rfl
  | c :: p, calls, tmp => by
    rw [mkdirWalk]
    split
    · exact mkdirWalk_reliable p _ _
    · exact mkdirWalk_reliable p _ _

theorem makeDirs_reliable (calls : List FsCall) {path : Bytes} (h : dirName path ≠ some []) :
    (makeDirs .reliable calls path).1 = .created := by
  unfold makeDirs
  split
  · next dir hdir =>
    have hne : dir ≠ [] := by
      rintro rfl
      exact h hdir
    rw [mkdirP, if_neg hne]
    exact mkdirWalk_reliable _ _ _
  · rfl

/-- On a reliable file system the loop opens the path of every file. -/
theorem openFiles_reliable (dir : Bytes) : ∀ (tfs : List FileT) (calls : List FsCall)
    (o : UInt64), (openFiles .reliable (some dir) calls o tfs).1 ≠ .undefined →
    (∀ call ∈ calls, call ∈ (openFiles .reliable (some dir) calls o tfs).2) ∧
    ∀ tf ∈ tfs, dirName (fullPath (some dir) tf.path) ≠ some [] ∧
      .fopen (fullPath (some dir) tf.path) ∈ (openFiles .reliable (some dir) calls o tfs).2
  | [], calls, o, _ => ⟨fun _ h => h, fun _ h => absurd h List.not_mem_nil⟩
  | tf :: tfs, calls, o, h => by
    have hdir : dirName (fullPath (some dir) tf.path) ≠ some [] := by
      intro hnil
      apply h
      rw [openFiles, makeDirs, hnil]
      rfl
    obtain ⟨_, _, hold⟩ := makeDirs_calls .reliable calls hdir
    have hmade := makeDirs_reliable calls hdir
    rw [openFiles] at h ⊢
    generalize makeDirs .reliable calls (fullPath (some dir) tf.path) = made at hold hmade h ⊢
    obtain ⟨result, calls1⟩ := made
    obtain rfl : result = .created := hmade
    dsimp only [Fs.reliable] at h ⊢
    have hrest := openFiles_reliable dir tfs
      (calls1 ++ [.fopen (fullPath (some dir) tf.path)]) (o + tf.length)
    dsimp only [Fs.reliable] at hrest
    generalize openFiles _ _ _ _ tfs = rest at hrest h ⊢
    obtain ⟨result, calls2⟩ := rest
    -- A later failure does not undo the calls.
    have hstep : result ≠ .undefined →
        (∀ call ∈ calls, call ∈ calls2) ∧
        ∀ tf' ∈ tf :: tfs, dirName (fullPath (some dir) tf'.path) ≠ some [] ∧
          FsCall.fopen (fullPath (some dir) tf'.path) ∈ calls2 := by
      intro hdef
      obtain ⟨hkeep, hopened⟩ := hrest hdef
      refine ⟨fun call hcall => hkeep call (List.mem_append_left _ (hold call hcall)), ?_⟩
      intro tf' htf'
      rcases List.mem_cons.mp htf' with rfl | htf'
      · exact ⟨hdir, hkeep _ (List.mem_append_right _ List.mem_cons_self)⟩
      · exact hopened tf' htf'
    cases result with
    | undefined => exact absurd rfl h
    | opened files => exact hstep nofun
    | failed => exact hstep nofun

/-- `storage_open` is its loop over the files. -/
theorem storageOpen_eq (fs : Fs) {cfg : Config} {tor : TorrentT}
    (h : ¬(cfg.outputFile.isSome ∧ 1 < tor.files.length)) :
    ((storageOpen fs cfg tor).1 = .undefined ↔
      (openFiles fs cfg.extractDir [] 0 tor.files).1 = .undefined) ∧
    (storageOpen fs cfg tor).2 = (openFiles fs cfg.extractDir [] 0 tor.files).2 := by
  rw [storageOpen, if_neg h]
  generalize openFiles fs cfg.extractDir [] 0 tor.files = r
  obtain ⟨result, calls⟩ := r
  cases result with
  | opened files => exact ⟨⟨nofun, nofun⟩, rfl⟩
  | failed => exact ⟨⟨nofun, nofun⟩, rfl⟩
  | undefined => exact ⟨⟨fun _ => rfl, fun _ => rfl⟩, rfl⟩

/-- A contained path has a directory, and it is empty only for a name in the empty one. -/
theorem dirName_fullPath_iff {dir : Bytes} {path : List Bytes} (h : dir.length < pathLen - 1) :
    dirName (fullPath (some dir) path) ≠ some [] ↔ (dir = [] → 47 ∈ keptPath dir path) := by
  rw [fullPath_eq h, ne_eq, dirName_eq_nil_iff]
  constructor
  · rintro hno rfl
    by_contra hmem
    exact hno ⟨_, rfl, hmem⟩
  · rintro himp ⟨base, hbase, hmem⟩
    cases dir with
    | nil =>
      obtain rfl := (List.cons_eq_cons.mp hbase).2
      exact hmem (himp rfl)
    | cons c dir =>
      obtain ⟨_, rfl⟩ := List.cons_eq_cons.mp hbase
      exact hmem (List.mem_append_right _ List.mem_cons_self)

/-- `storage_open` stays inside of `dir` exactly when it opens nothing, or the directory
fits the buffer and no joined path has a component `..` in what is kept of it (and, for
the empty directory, has a slash). -/
theorem staysInside_iff (out : Option Bytes) (dir : Bytes) (tor : TorrentT) :
    StaysInside ⟨out, some dir⟩ dir tor ↔
      (out.isSome ∧ 1 < tor.files.length) ∨
      ∀ f ∈ tor.files, dir.length < pathLen - 1 ∧
        dotDot ∉ (keptPath dir f.path).splitOn 47 ∧ (dir = [] → 47 ∈ keptPath dir f.path) := by
  constructor
  · intro h
    by_cases hout : out.isSome ∧ 1 < tor.files.length
    · exact .inl hout
    · have hcfg : ¬((Config.mk out (some dir)).outputFile.isSome ∧ 1 < tor.files.length) := hout
      obtain ⟨hundef, hcalls⟩ := storageOpen_eq .reliable hcfg
      obtain ⟨hdef, hcont⟩ := h .reliable
      rw [hcalls] at hcont
      obtain ⟨_, hopened⟩ := openFiles_reliable dir tor.files [] 0
        fun hno => hdef (hundef.mpr hno)
      refine .inr fun f hf => ?_
      obtain ⟨hdir, hmem⟩ := hopened f hf
      obtain ⟨hlt, hdots⟩ := inside_fullPath_iff.mp (hcont _ hmem)
      exact ⟨hlt, hdots, (dirName_fullPath_iff hlt).mp hdir⟩
  · intro hcond fs
    by_cases hout : out.isSome ∧ 1 < tor.files.length
    · rw [storageOpen, if_pos hout]
      exact ⟨nofun, fun _ hcall => absurd hcall List.not_mem_nil⟩
    · have hfiles := hcond.resolve_left hout
      have hcfg : ¬((Config.mk out (some dir)).outputFile.isSome ∧ 1 < tor.files.length) := hout
      obtain ⟨hundef, hcalls⟩ := storageOpen_eq fs hcfg
      have hloop := openFiles_contained fs tor.files [] 0
        (fun f hf => inside_fullPath_iff.mpr ⟨(hfiles f hf).1, (hfiles f hf).2.1⟩)
        (fun f hf => (dirName_fullPath_iff (hfiles f hf).1).mpr (hfiles f hf).2.2)
        (fun _ hcall => absurd hcall List.not_mem_nil)
      rw [hcalls]
      exact ⟨fun hno => hloop.1 (hundef.mp hno), hloop.2⟩

/-- A torrent file with one empty file, whose path is `..` and `x`. -/
def parentFile : Bytes :=
  ascii "d4:infod5:filesld6:lengthi0e4:pathl2:..1:xeeeee"

/-- What is loaded from it. -/
def parentTorrent : TorrentT where
  announce := none
  comment := none
  creationDate := 0
  createdBy := none
  infoHash := Sha1.sha1 (ascii "d5:filesld6:lengthi0e4:pathl2:..1:xeeee")
  name := none
  pieceLength := 0
  numPieces := 0
  pieces := []
  files := [⟨[ascii "..", ascii "x"], 0⟩]
  totalLength := 0

/-- Extracted to `out`, it makes and opens `out/../x`. -/
theorem storage_leaves_directory :
    torrentLoadFromMemory Sha1.sha1 parentFile = .ok (some parentTorrent) ∧
      ¬ StaysInside ⟨none, some (ascii "out")⟩ (ascii "out") parentTorrent := by
  refine ⟨by decide +kernel, fun h => ?_⟩
  have hopened : FsCall.fopen (ascii "out/../x") ∈
      (storageOpen .reliable ⟨none, some (ascii "out")⟩ parentTorrent).2 := by decide +kernel
  obtain ⟨rest, hpath, hdots⟩ := (h .reliable).2 _ hopened
  have hrest : rest = ascii "../x" :=
    (List.cons_eq_cons.mp (List.append_cancel_left
      (show ascii "out" ++ 47 :: ascii "../x" = ascii "out" ++ 47 :: rest from hpath))).2.symm
  rw [hrest] at hdots
  exact hdots (by decide +kernel)

end CourseWork.Torrent
