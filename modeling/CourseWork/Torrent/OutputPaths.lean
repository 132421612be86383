import CourseWork.Torrent.StoragePaths
import CourseWork.Torrent.Tar

/-!
# The paths of the output

What becomes of the options and of the path elements of a torrent: the path that
`tar_writer_write` assembles in a buffer, and the paths that `storage_open` opens once
`setup_output_context` has chosen it.
-/

namespace CourseWork.Torrent
open CLib Bencode

/-! ## The buffer of `tar_writer_write` -/

/-- `strcat` to the string in `full_path`; `none` if it writes behind the buffer. -/
def strcat (fullPath s : Bytes) : Option Bytes :=
  if (fullPath ++ s).length < pathLen then some (fullPath ++ s) else none

/-- The loop of `tar_writer_write` over the elements of a path. -/
def assemblePath (fullPath : Bytes) : List Bytes → Option Bytes
  | [] => some fullPath
  | [s] => strcat fullPath s
  | s :: s' :: path => do
    let fullPath ← strcat fullPath s
    let fullPath ← strcat fullPath [47]
    assemblePath fullPath (s' :: path)

theorem joinPath_cons_cons (s s' : Bytes) (path : List Bytes) :
    joinPath (s :: s' :: path) = s ++ 47 :: joinPath (s' :: path) := by
  rw [joinPath, List.intercalate_cons_cons, List.append_assoc, List.singleton_append, joinPath]

/-- The elements, and a slash between each two of them. -/
theorem length_joinPath : ∀ path : List Bytes,
    (joinPath path).length = (path.map List.length).sum + (path.length - 1)
  | [] => rfl
  | [s] => by rw [joinPath, List.intercalate_singleton]; rfl
  | s :: s' :: path => by
    have ih := length_joinPath (s' :: path)
    rw [joinPath_cons_cons, List.length_append, List.length_cons, ih]
    simp only [List.map_cons, List.sum_cons, List.length_cons]
    omega

/-- The loop appends the joined path, if there is room for it and the terminator. -/
theorem assemblePath_eq : ∀ (path : List Bytes) {fullPath : Bytes}, fullPath.length < pathLen →
    assemblePath fullPath path = strcat fullPath (joinPath path)
  | [], fullPath, h => by
    have hnil : joinPath [] = [] := rfl
    rw [assemblePath, hnil, strcat, List.append_nil, if_pos h]
  | [s], fullPath, _ => by rw [assemblePath, joinPath, List.intercalate_singleton]
  | s :: s' :: path, fullPath, _ => by
    rw [assemblePath, joinPath_cons_cons]
    by_cases hs : (fullPath ++ s ++ [47]).length < pathLen
    · have hfront : (fullPath ++ s).length < pathLen := by
        rw [List.length_append] at hs
        omega
      rw [strcat, if_pos hfront, Option.bind_eq_bind, Option.bind_some, strcat, if_pos hs,
        Option.bind_some, assemblePath_eq (s' :: path) hs, strcat, strcat,
        List.append_assoc, List.append_assoc, List.singleton_append]
    · -- Neither the elements that follow nor the slash make it shorter.
      have hnone : strcat fullPath (s ++ 47 :: joinPath (s' :: path)) = none := by
        refine if_neg fun h => hs ?_
        simp only [List.length_append, List.length_cons, List.length_nil] at h ⊢
        omega
      rw [hnone, Option.bind_eq_bind, Option.bind_eq_none_iff]
      intro front hfront
      rw [strcat] at hfront
      split at hfront
      · cases hfront
        rw [strcat, if_neg hs]
        rfl
      · cases hfront

/-- The header of a new file has the assembled path. -/
theorem enterFile_eq (tw : TarWriter) (i : Nat) (f : FileT) :
    enterFile tw i f =
      if Int32.ofNat i ≠ tw.currentFileIndex then
        (assemblePath [] f.path).map fun fullPath =>
          { writeHeader tw fullPath f.length with
            currentFileIndex := Int32.ofNat i
            fileBytesWritten := 0 }
      else some tw := by
  rw [enterFile, assemblePath_eq f.path (by decide), strcat, List.nil_append]
  split
  · split
    · rfl
    · rfl
  · rfl

/-- The path stays in the buffer exactly if its elements and slashes leave room for the
terminator. -/
theorem assemblePath_isSome_iff (path : List Bytes) :
    (assemblePath [] path).isSome ↔ (path.map List.length).sum + (path.length - 1) < 4096 := by
  rw [assemblePath_eq path (by decide), strcat, List.nil_append, length_joinPath]
  split
  · next h => exact iff_of_true rfl h
  · next h => exact iff_of_false Bool.false_ne_true h

/-- The info dictionary of a file of one byte, with this element as its path. -/
def elementInfo (element : Bytes) : Ben :=
  .dict (.cons (ascii "files") (.list (.cons (.dict
    (.cons (ascii "length") (.int 1)
    (.cons (ascii "path") (.list (.cons (.str element) .nil)) .nil))) .nil))
    (.cons (ascii "piece length") (.int 1)
    (.cons (ascii "pieces") (.str (List.replicate 20 0)) .nil)))

/-- The dictionary of the torrent file. -/
def elementRoot (element : Bytes) : Ben := .dict (.cons (ascii "info") (elementInfo element) .nil)

/-- What is loaded from it. -/
def elementTorrent (element : Bytes) : TorrentT where
  announce := none
  comment := none
  creationDate := 0
  createdBy := none
  infoHash := Sha1.sha1 (bencodeEncode (elementInfo element))
  name := none
  pieceLength := 1
  numPieces := 1
  pieces := List.replicate 20 0
  files := [⟨[cstr element], 1⟩]
  totalLength := 1

theorem load_element {element : Bytes}
    (h : (bencodeEncode (elementRoot element)).length < 2 ^ 63) :
    torrentLoadFromMemory Sha1.sha1 (bencodeEncode (elementRoot element)) =
      .ok (some (elementTorrent element)) := by
  rw [torrentLoadFromMemory_encode _ h]
  rfl

/-- A path that does not fit makes the first write of `tar_writer_write` undefined. -/
theorem tarWriterWrite_element {element : Bytes} (h : assemblePath [] [cstr element] = none) :
    tarWriterWrite (tarWriterOpen ⟨[], []⟩ [] (elementTorrent element)) 0 [0] 1 = none := by
  have henter : ∀ tw : TarWriter, tw.currentFileIndex = -1 →
      enterFile tw 0 ⟨[cstr element], 1⟩ = none := fun tw hindex => by
    rw [enterFile_eq, hindex, if_pos (by decide), h, Option.map_none]
  show (writeFilePart 0 1 [0] 0 _ 0 _).bind _ = none
  rw [writeFilePart]
  have hoverlap : (if (0 : UInt64) > 0 then (0 : UInt64) else 0) <
      if (1 : UInt64) < 0 + 1 then 1 else 0 + 1 := by decide
  refine (congrArg (Option.bind · _) (if_pos hoverlap)).trans ?_
  rw [henter _ rfl]
  rfl

/-- A path element of 4096 bytes. -/
def longElement : Bytes := List.replicate 4096 97

theorem cstr_longElement : cstr longElement = longElement := by
  rw [cstr, List.takeWhile_eq_self_iff]
  intro c hc
  rw [(List.mem_replicate.mp hc).2]
  rfl

/-- It is accepted, and its first byte makes `tar_writer_write` leave the buffer. -/
theorem assemblePath_overflows :
    ∃ data tor f, torrentLoadFromMemory Sha1.sha1 data = .ok (some tor) ∧ f ∈ tor.files ∧
      assemblePath [] f.path = none ∧
      tarWriterWrite (tarWriterOpen ⟨[], []⟩ [] tor) 0 [0] 1 = none := by
  have hlength : longElement.length = 4096 := List.length_replicate
  have hnone : assemblePath [] [cstr longElement] = none := by
    rw [assemblePath, cstr_longElement, strcat, List.nil_append, hlength]
    rfl
  exact ⟨_, elementTorrent longElement, ⟨[cstr longElement], 1⟩,
    load_element (by decide +kernel), List.mem_singleton_self _, hnone,
    tarWriterWrite_element hnone⟩

/-! ## The options -/

/-- What `getopt` returns for one option. -/
inductive Opt
  | inputFile (optarg : Bytes)
  | watchDir (optarg : Bytes)
  | outputFile (optarg : Bytes)
  | extractDir (optarg : Bytes)
  /-- An unknown option, or one without its argument. -/
  | invalid

/-- The fields of `config_t` that `parse_args` sets. -/
structure Args where
  inputFile : Option Bytes
  watchDir : Option Bytes
  output : Config
  useStdin : Bool
  useStdout : Bool

/-- The body of the loop of `parse_args`; `none` if it exits. -/
def parseOpt (cfg : Args) : Opt → Option Args
  | .inputFile optarg => some { cfg with inputFile := some optarg, useStdin := false }
  | .watchDir optarg => some { cfg with watchDir := some optarg, useStdin := false }
  | .outputFile optarg =>
    some { cfg with output := { cfg.output with outputFile := some optarg }, useStdout := false }
  | .extractDir optarg =>
    some { cfg with output := { cfg.output with extractDir := some optarg }, useStdout := false }
  | .invalid => none

/-- `parse_args`. -/
def parseArgs (opts : List Opt) : Option Args :=
  opts.foldlM parseOpt ⟨none, none, ⟨none, none⟩, true, true⟩

/-! ## The opened paths -/

/-- `out_ctx`. -/
inductive OutputContext
  | storage (st : Storage)
  | tar (tw : TarWriter)

/-- `setup_output_context`, with the calls it makes. -/
def setupOutputContext (fs : Fs) (stdout : OutStream) (clock : List UInt64) (cfg : Config)
    (tor : TorrentT) : OpenResult OutputContext × List FsCall :=
  if cfg.outputFile.isSome ∨ cfg.extractDir.isSome then
    if cfg.outputFile.isSome ∧ tor.files.length > 1 then (.failed, [])
    else
      match storageOpen fs cfg tor with
      | (.opened st, calls) => (.opened (.storage st), calls)
      | (.failed, calls) => (.failed, calls)
      | (.undefined, calls) => (.undefined, calls)
  else (.opened (.tar (tarWriterOpen stdout clock tor)), [])

/-- The path of a call of `fopen`. -/
def FsCall.opened? : FsCall → Option Bytes
  | .fopen path => some path
  | .mkdir _ => none

/-- Where the options say that a file goes: into the directory, else to the output file. -/
def documentedPath (cfg : Config) (f : FileT) : Option Bytes :=
  match cfg.extractDir with
  | some dir => some (dir ++ 47 :: joinPath f.path)
  | none => cfg.outputFile

/-- The files are opened where the options say. -/
def OpensDocumented (cfg : Config) (tor : TorrentT) (calls : List FsCall) : Prop :=
  calls.filterMap FsCall.opened? = tor.files.filterMap (documentedPath cfg)

/-- The paths in the directory fit the buffer; without a directory, the torrent itself has
the path that is given as output file. -/
def PathsAgree (cfg : Config) (tor : TorrentT) : Prop :=
  match cfg.extractDir, cfg.outputFile with
  | some dir, _ => ∀ f ∈ tor.files, dir.length + 1 + (joinPath f.path).length < pathLen
  | none, some file => ∀ f ∈ tor.files, (joinPath f.path).take (pathLen - 1) = file
  | none, none => True

section Opened

variable {fs : Fs} {dir : Option Bytes}

theorem mkdirWalk_opened (fs : Fs) : ∀ (p : Bytes) (calls : List FsCall) (tmp : Bytes),
    (mkdirWalk fs calls tmp p).2.filterMap FsCall.opened? = calls.filterMap FsCall.opened?
  | [], calls, tmp => by
    rw [mkdirWalk, List.filterMap_append]
    exact List.append_nil _
  | c :: p, calls, tmp => by
    have hmkdir : (calls ++ [FsCall.mkdir tmp]).filterMap FsCall.opened? =
        calls.filterMap FsCall.opened? := by
      rw [List.filterMap_append]
      exact List.append_nil _
    rw [mkdirWalk]
    split
    · dsimp only
      split
      · rw [mkdirWalk_opened fs p, hmkdir]
      · exact hmkdir
    · exact mkdirWalk_opened fs p _ _

/-- Directories are no opened files. -/
theorem makeDirs_opened (fs : Fs) (calls : List FsCall) (path : Bytes) :
    (makeDirs fs calls path).2.filterMap FsCall.opened? = calls.filterMap FsCall.opened? := by
  unfold makeDirs
  split
  · unfold mkdirP
    split
    · rfl
    · exact mkdirWalk_opened fs _ _ _
  · rfl

/-- The loop of `storage_open` opens the path of every file. -/
theorem openFiles_opened : ∀ {tfs : List FileT} {calls calls' : List FsCall} {o : UInt64}
    {files : List FileInfo}, openFiles fs dir calls o tfs = (.opened files, calls') →
    calls'.filterMap FsCall.opened? =
      calls.filterMap FsCall.opened? ++ tfs.map fun f => fullPath dir f.path
  | [], _, _, _, _, h => by
    cases h
    exact (List.append_nil _).symm
  | tf :: tfs, calls, calls', o, files, h => by
    have hdirs := makeDirs_opened fs calls (fullPath dir tf.path)
    rw [openFiles] at h
    split at h
    · cases h
    · cases h
    · next calls1 hmade =>
      rw [hmade] at hdirs
      dsimp only at h hdirs
      split at h
      · cases h
      · split at h
        · next files' calls2 hrest =>
          cases h
          rw [openFiles_opened hrest, List.filterMap_append, hdirs, List.append_assoc]
          rfl
        · cases h
        · cases h

/-- What is opened for an accepted configuration. -/
theorem setupOutputContext_opened {stdout : OutStream} {clock : List UInt64} {cfg : Config}
    {tor : TorrentT} {ctx : OutputContext} {calls : List FsCall}
    (h : setupOutputContext fs stdout clock cfg tor = (.opened ctx, calls)) :
    calls.filterMap FsCall.opened? =
      if cfg.outputFile.isSome ∨ cfg.extractDir.isSome then
        tor.files.map fun f => fullPath cfg.extractDir f.path
      else [] := by
  unfold setupOutputContext at h
  split at h
  · next hoption =>
    rw [if_pos hoption]
    split at h
    · cases h
    · split at h
      · next st calls' hopen =>
        cases h
        unfold storageOpen at hopen
        split at hopen
        · cases hopen
        · split at hopen
          · next files calls'' hfiles =>
            cases hopen
            exact openFiles_opened hfiles
          · cases hopen
          · cases hopen
      · cases h
      · cases h
  · next hoption =>
    cases h
    rw [if_neg hoption]
    rfl

/-- Without a directory the path of the torrent is opened, as far as it fits. -/
theorem fullPath_none (path : List Bytes) :
    fullPath none path = (joinPath path).take (pathLen - 1) := by
  rw [fullPath, appendPath_eq (Nat.zero_le _), strncat_eq (Nat.zero_le _), List.nil_append,
    joinPath]

/-- In a directory the whole path is opened exactly if it fits. -/
theorem fullPath_some_iff (dir : Bytes) (path : List Bytes) :
    fullPath (some dir) path = dir ++ 47 :: joinPath path ↔
      dir.length + 1 + (joinPath path).length < pathLen := by
  constructor
  · intro h
    have hle := length_fullPath_le dir path
    rw [h, List.length_append, List.length_cons] at hle
    have hpos : 0 < pathLen := by decide
    omega
  · intro h
    rw [fullPath_eq (by omega), keptPath, List.take_of_length_le, joinPath]
    rw [joinPath] at h
    omega

/-- The files are opened where the options say exactly if the paths fit the directory, and
the torrent has the path of the output file. -/
theorem setupOutputContext_documented_iff {stdout : OutStream} {clock : List UInt64}
    {cfg : Config} {tor : TorrentT} {ctx : OutputContext} {calls : List FsCall}
    (h : setupOutputContext fs stdout clock cfg tor = (.opened ctx, calls)) :
    OpensDocumented cfg tor calls ↔ PathsAgree cfg tor := by
  rw [OpensDocumented, setupOutputContext_opened h]
  obtain ⟨outputFile, extractDir⟩ := cfg
  cases extractDir with
  | some dir =>
    have hdocumented : tor.files.filterMap (documentedPath ⟨outputFile, some dir⟩) =
        tor.files.map fun f => dir ++ 47 :: joinPath f.path :=
      congrFun List.filterMap_eq_map tor.files
    rw [if_pos (.inr rfl), hdocumented, List.map_inj_left]
    exact forall₂_congr fun f _ => fullPath_some_iff dir f.path
  | none =>
    cases outputFile with
    | some file =>
      have hdocumented : tor.files.filterMap (documentedPath ⟨some file, none⟩) =
          tor.files.map fun _ => file := congrFun List.filterMap_eq_map tor.files
      rw [if_pos (.inl rfl), hdocumented, List.map_inj_left]
      refine forall₂_congr fun f _ => ?_
      rw [fullPath_none]
    | none =>
      have hnone : tor.files.filterMap (documentedPath ⟨none, none⟩) = [] :=
        List.filterMap_eq_nil_iff.mpr fun _ _ => rfl
      rw [if_neg (by decide), hnone]
      exact iff_of_true rfl trivial

/-- Extracted to `out`, a file `a` is `out/a`. -/
theorem setupOutputContext_documented_iff_directory :
    ∃ ctx calls, setupOutputContext .reliable ⟨[], []⟩ [] ⟨none, some (ascii "out")⟩
        (elementTorrent (ascii "a")) = (.opened ctx, calls) ∧
      OpensDocumented ⟨none, some (ascii "out")⟩ (elementTorrent (ascii "a")) calls := by
  obtain ⟨ctx, calls, h⟩ : ∃ ctx calls, setupOutputContext .reliable ⟨[], []⟩ []
      ⟨none, some (ascii "out")⟩ (elementTorrent (ascii "a")) = (.opened ctx, calls) :=
    ⟨_, _, rfl⟩
  refine ⟨ctx, calls, h, (setupOutputContext_documented_iff h).mpr ?_⟩
  intro f hf
  rw [List.mem_singleton.mp hf]
  decide

/-- With `-o b` the file `a` of an accepted torrent is opened as `a`. -/
theorem setupOutputContext_ignores_output_file :
    ∃ data tor args ctx calls, torrentLoadFromMemory Sha1.sha1 data = .ok (some tor) ∧
      parseArgs [.outputFile (ascii "b")] = some args ∧
      setupOutputContext .reliable ⟨[], []⟩ [] args.output tor = (.opened ctx, calls) ∧
      calls.filterMap FsCall.opened? = [ascii "a"] ∧
      ¬OpensDocumented args.output tor calls := by
  refine ⟨_, elementTorrent (ascii "a"), _, _, _, load_element (by decide +kernel), rfl, rfl, rfl,
    fun h => ?_⟩
  exact absurd (show [ascii "a"] = [ascii "b"] from h) (by decide)

end Opened

end CourseWork.Torrent
