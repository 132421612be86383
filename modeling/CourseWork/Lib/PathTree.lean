import CourseWork.Lib.CLib

/-!
# Paths in a tree of files

Resolution of `.`, `..` and repeated slashes in a tree without links, the text of a
resolved path, and what a common text prefix of two paths means for the objects.
-/

namespace PathTree
open CLib

/-- The name of an entry. -/
abbrev Name := Bytes

/-- A file, or a directory with its entries. -/
inductive Tree
  | file (readable : Bool)
  | directory (readable : Bool) (entries : List (Name × Tree))

namespace Tree

/-- The object that is reached from the root through the names. -/
def find : Tree → List Name → Option Tree
  | t, [] => some t
  | .directory _ entries, n :: path => (entries.lookup n).bind (·.find path)
  | .file _, _ :: _ => none

/-- `S_ISDIR`. -/
def isDirectory : Tree → Bool
  | .directory .. => true
  | .file _ => false

/-- `access` with `R_OK`. -/
def readable : Tree → Bool
  | .directory readable _ => readable
  | .file readable => readable

end Tree

/-- A tree, the working directory, and `PATH_MAX` if there is such a limit. -/
structure World where
  root : Tree
  cwd : List Name
  pathMax : Option Nat
  cwd_names : ∀ n ∈ cwd, n ≠ [] ∧ 47 ∉ n

/-! ## Resolution -/

/-- One component, without a look at the tree. -/
def normalStep (here : List Name) (c : Name) : List Name :=
  if c = [] ∨ c = ascii "." then here
  else if c = ascii ".." then here.dropLast
  else here ++ [c]

/-- Where the resolution of a path starts. -/
def World.start (w : World) (path : Bytes) : List Name :=
  if path.head? = some 47 then [] else w.cwd

/-- The path with its `.`, `..` and empty components removed. -/
def World.normal (w : World) (path : Bytes) : List Name :=
  (path.splitOn 47).foldl normalStep (w.start path)

/-- One component: it starts at a directory, and a name has to exist. -/
def World.walk (w : World) (here : List Name) (c : Name) : Option (List Name) :=
  if (w.root.find here).any Tree.isDirectory then
    if (w.root.find (normalStep here c)).isSome then some (normalStep here c) else none
  else none

/-- The object that the path names. -/
def World.resolve (w : World) (path : Bytes) : Option (List Name) :=
  if path = [] then none
  else (path.splitOn 47).foldlM w.walk (w.start path)

section Resolution

variable {w : World}

theorem walk_eq_some {here here' : List Name} {c : Name} (h : w.walk here c = some here') :
    here' = normalStep here c := by
  rw [World.walk] at h
  split at h
  · split at h
    · exact (Option.some.inj h).symm
    · cases h
  · cases h

/-- What a path names is its normal form. -/
theorem resolve_eq_some {path : Bytes} {o : List Name} (h : w.resolve path = some o) :
    o = w.normal path := by
  rw [World.resolve] at h
  split at h
  · cases h
  · rw [World.normal]
    generalize w.start path = here at h ⊢
    generalize path.splitOn 47 = components at h ⊢
    induction components generalizing here with
    | nil => exact (Option.some.inj h).symm
    | cons c components ih =>
      rw [List.foldlM_cons] at h
      obtain ⟨here', hwalk, hrest⟩ := Option.bind_eq_some_iff.mp h
      rw [List.foldl_cons, ← walk_eq_some hwalk]
      exact ih here' hrest

/-- An empty component makes no difference before another one. -/
theorem foldlM_walk_nil (here : List Name) {components : List Name} (h : components ≠ []) :
    ([] :: components).foldlM w.walk here = components.foldlM w.walk here := by
  obtain ⟨c, components, rfl⟩ := List.exists_cons_of_ne_nil h
  rw [List.foldlM_cons]
  by_cases hdir : (w.root.find here).any Tree.isDirectory
  · have hsome : (w.root.find here).isSome := by
      cases hfind : w.root.find here with
      | none =>
        rw [hfind] at hdir
        cases hdir
      | some t => rfl
    have hwalk : w.walk here [] = some here := by
      rw [World.walk, if_pos hdir]
      exact if_pos hsome
    rw [hwalk]
    rfl
  · have hwalk : ∀ c, w.walk here c = none := fun c => if_neg hdir
    rw [hwalk, List.foldlM_cons, hwalk]
    rfl

/-- A doubled slash is a slash. -/
theorem resolve_slash (base rest : Bytes) :
    w.resolve (base ++ 47 :: 47 :: rest) = w.resolve (base ++ 47 :: rest) := by
  have hstart : w.start (base ++ 47 :: 47 :: rest) = w.start (base ++ 47 :: rest) := by
    cases base with
    | nil => rfl
    | cons c base => rfl
  have hne : ∀ rest : Bytes, base ++ 47 :: rest ≠ [] := fun rest h =>
    List.cons_ne_nil _ _ (List.append_eq_nil_iff.mp h).2
  have hempty : (47 :: rest : Bytes).splitOn 47 = [] :: rest.splitOn 47 :=
    List.splitOn_append_cons_self [] rest
  rw [World.resolve, World.resolve, if_neg (hne _), if_neg (hne _), hstart,
    List.splitOn_append_cons_self, List.splitOn_append_cons_self, hempty, List.foldlM_append,
    List.foldlM_append]
  congr 1
  funext here
  exact foldlM_walk_nil here (List.splitOn_ne_nil _ _)

/-- A slash at the end makes no difference. -/
theorem normal_append_slash {path : Bytes} (h : path ≠ []) :
    w.normal (path ++ [47]) = w.normal path := by
  have hstart : w.start (path ++ [47]) = w.start path := by
    obtain ⟨c, path, rfl⟩ := List.exists_cons_of_ne_nil h
    rfl
  rw [World.normal, World.normal, hstart, List.splitOn_append_cons_self, List.foldl_append,
    List.splitOn_nil, List.foldl_cons, List.foldl_nil, normalStep, if_pos (Or.inl rfl)]

theorem resolve_ne_nil {path : Bytes} {o : List Name} (h : w.resolve path = some o) :
    path ≠ [] := by
  rintro rfl
  cases h

end Resolution

/-! ## Names -/

/-- Names of entries: not empty, and without a slash. -/
def Names (path : List Name) : Prop := ∀ n ∈ path, n ≠ [] ∧ 47 ∉ n

theorem not_mem_splitOn {a : UInt8} {l : Bytes} : ∀ c ∈ l.splitOn a, a ∉ c := by
  induction l with
  | nil =>
    intro c hc
    rw [List.splitOn_nil] at hc
    rw [List.mem_singleton.mp hc]
    exact List.not_mem_nil
  | cons x l ih =>
    intro c hc
    rw [List.splitOn_cons_eq_if_modifyHead] at hc
    split at hc
    · rcases List.mem_cons.mp hc with rfl | hc
      · exact List.not_mem_nil
      · exact ih c hc
    · next hx =>
      cases hsplit : l.splitOn a with
      | nil =>
        rw [hsplit] at hc
        cases hc
      | cons first rest =>
        rw [hsplit] at hc ih
        rcases List.mem_cons.mp hc with rfl | hc
        · rw [List.mem_cons, not_or]
          exact ⟨fun hax => hx (beq_iff_eq.mpr hax.symm), ih first List.mem_cons_self⟩
        · exact ih c (List.mem_cons_of_mem _ hc)

theorem names_normalStep {here : List Name} {c : Name} (h : Names here) (hc : 47 ∉ c) :
    Names (normalStep here c) := by
  rw [normalStep]
  split
  · exact h
  · next hdot =>
    split
    · exact fun n hn => h n (List.dropLast_subset here hn)
    · refine List.forall_mem_append.mpr ⟨h, List.forall_mem_singleton.mpr ⟨?_, hc⟩⟩
      exact fun hnil => hdot (.inl hnil)

theorem names_normal (w : World) (path : Bytes) : Names (w.normal path) := by
  have hstart : Names (w.start path) := by
    rw [World.start]
    split
    · exact nofun
    · exact w.cwd_names
  rw [World.normal]
  generalize w.start path = here at hstart
  have hslash : ∀ c ∈ path.splitOn 47, 47 ∉ c := not_mem_splitOn
  generalize path.splitOn 47 = components at hslash ⊢
  induction components generalizing here with
  | nil => exact hstart
  | cons c components ih =>
    obtain ⟨hc, hrest⟩ := List.forall_mem_cons.mp hslash
    exact ih _ (names_normalStep hstart hc) hrest

/-! ## Texts -/

/-- The names, each behind a slash. -/
def flat (path : List Name) : Bytes := path.flatMap (47 :: ·)

/-- The text of a resolved path. -/
def pathText (path : List Name) : Bytes := if path = [] then [47] else flat path

/-- The object is the directory, or its text goes on behind the directory and a slash. -/
def Within (base o : List Name) : Prop :=
  pathText o = pathText base ∨ flat base ++ [47] <+: pathText o

instance (base o : List Name) : Decidable (Within base o) := inferInstanceAs (Decidable (_ ∨ _))

/-- The object lies at or below a sibling of the base whose name begins with the name of the
base and is longer. -/
def ExtendsName (base o : List Name) : Prop :=
  ∃ parent name ext rest, base = parent ++ [name] ∧ ext ≠ [] ∧
    o = parent ++ (name ++ ext) :: rest

theorem flat_nil : flat [] = [] := rfl

theorem flat_cons (n : Name) (path : List Name) : flat (n :: path) = 47 :: (n ++ flat path) :=
  List.flatMap_cons

theorem flat_append (path path' : List Name) : flat (path ++ path') = flat path ++ flat path' :=
  List.flatMap_append

theorem pathText_of_ne_nil {path : List Name} (h : path ≠ []) : pathText path = flat path :=
  if_neg h

/-- A text behind a name goes on with a slash. -/
theorem flat_head {path : List Name} {c : UInt8} {s : Bytes} (h : flat path = c :: s) : c = 47 := by
  cases path with
  | nil => cases h
  | cons n path => exact (List.cons_eq_cons.mp h).1.symm

theorem splitOn_append_flat {path : List Name} (h : Names path) (base : Bytes) :
    (base ++ flat path).splitOn 47 = base.splitOn 47 ++ path := by
  induction path generalizing base with
  | nil => rw [flat_nil, List.append_nil, List.append_nil]
  | cons n path ih =>
    obtain ⟨hn, hpath⟩ := List.forall_mem_cons.mp h
    rw [flat_cons, List.splitOn_append_cons_self, ih hpath, List.splitOn_eq_singleton hn.2,
      List.singleton_append]

theorem find_append (t : Tree) (here path : List Name) :
    t.find (here ++ path) = (t.find here).bind (·.find path) := by
  induction here generalizing t with
  | nil =>
    rw [List.nil_append, Tree.find, Option.bind_some]
  | cons n here ih =>
    cases t with
    | file readable => rfl
    | directory readable entries =>
      rw [List.cons_append, Tree.find, Tree.find, Option.bind_assoc]
      congr 1
      funext t
      exact ih t

/-- The name of an entry that is there is followed. -/
theorem walk_name {w : World} {here : List Name} {n : Name} {t : Tree}
    (hn : n ≠ [] ∧ n ≠ ascii "." ∧ n ≠ ascii "..") (h : w.root.find (here ++ [n]) = some t) :
    w.walk here n = some (here ++ [n]) := by
  have hnormal : normalStep here n = here ++ [n] := by
    rw [normalStep, if_neg (not_or.mpr ⟨hn.1, hn.2.1⟩), if_neg hn.2.2]
  have hdir : (w.root.find here).any Tree.isDirectory = true := by
    rw [find_append] at h
    obtain ⟨d, hfind, hentry⟩ := Option.bind_eq_some_iff.mp h
    rw [hfind]
    cases d with
    | file readable => cases hentry
    | directory readable entries => rfl
  rw [World.walk, if_pos hdir, hnormal, h]
  rfl

/-- Names behind a path lead from what the path names to the entry. -/
theorem resolve_append_flat {w : World} {base : Bytes} {b path : List Name} {t : Tree}
    (hbase : w.resolve base = some b) (hpath : Names path)
    (hdots : ∀ n ∈ path, n ≠ ascii "." ∧ n ≠ ascii "..")
    (hfind : w.root.find (b ++ path) = some t) :
    w.resolve (base ++ flat path) = some (b ++ path) := by
  have hne := resolve_ne_nil hbase
  have hstart : w.start (base ++ flat path) = w.start base := by
    obtain ⟨c, base, rfl⟩ := List.exists_cons_of_ne_nil hne
    rfl
  have hwalk : path.foldlM w.walk b = some (b ++ path) := by
    clear hbase hstart
    induction path generalizing b with
    | nil =>
      rw [List.append_nil]
      rfl
    | cons n path ih =>
      obtain ⟨hn, hpath⟩ := List.forall_mem_cons.mp hpath
      obtain ⟨hdot, hdots⟩ := List.forall_mem_cons.mp hdots
      rw [List.append_cons] at hfind ⊢
      obtain ⟨t', hfind', _⟩ := Option.bind_eq_some_iff.mp ((find_append _ _ _).symm.trans hfind)
      rw [List.foldlM_cons, walk_name ⟨hn.1, hdot⟩ hfind']
      exact ih hpath hdots hfind
  rw [World.resolve, if_neg hne] at hbase
  rw [World.resolve, if_neg (fun h => hne (List.append_eq_nil_iff.mp h).1), hstart,
    splitOn_append_flat hpath, List.foldlM_append, hbase]
  exact hwalk

/-! ## Lengths of paths -/

/-- The text and its NUL are no longer than `PATH_MAX`. -/
def World.fits (w : World) (text : Bytes) : Bool := w.pathMax.all (text.length < ·)

/-- The texts of the objects on the way are not too long. -/
def World.passable (w : World) : List Name → List Name → Bool
  | here, [] => w.fits (pathText here)
  | here, c :: components => w.fits (pathText here) && w.passable (normalStep here c) components

/-- `realpath` in a buffer of its own: the path may have any length, and each object on the way
is looked up by its text. -/
def World.realpath (w : World) (path : Bytes) : Option (List Name) :=
  if w.passable (w.start path) (path.splitOn 47) then w.resolve path else none

/-- `stat`, `access`, `open` and `opendir` get the whole path. -/
def World.lookup (w : World) (path : Bytes) : Option (List Name) :=
  if w.fits path then w.resolve path else none

section Lengths

variable {w : World} {path base : Bytes} {b o names : List Name}

theorem resolve_of_realpath (h : w.realpath path = some o) : w.resolve path = some o := by
  rw [World.realpath] at h
  split at h
  · exact h
  · cases h

theorem resolve_of_lookup (h : w.lookup path = some o) : w.resolve path = some o := by
  rw [World.lookup] at h
  split at h
  · exact h
  · cases h

theorem fits_of_length_le {text text' : Bytes} (hfits : w.fits text = true)
    (h : text'.length ≤ text.length) : w.fits text' = true := by
  rw [World.fits] at hfits ⊢
  generalize w.pathMax = pathMax at hfits ⊢
  cases pathMax with
  | none => rfl
  | some pathMax =>
    rw [Option.all_some, decide_eq_true_eq] at hfits ⊢
    omega

theorem length_pathText_append (here names : List Name) :
    (pathText here).length ≤ (pathText (here ++ names)).length := by
  cases names with
  | nil => rw [List.append_nil]
  | cons n names =>
    rw [pathText_of_ne_nil (List.append_ne_nil_of_right_ne_nil _ (List.cons_ne_nil _ _)), pathText]
    split
    · rw [flat_append, flat_cons, List.length_append, List.length_cons]
      exact Nat.le_add_left_of_le (Nat.le_add_left _ _)
    · rw [flat_append, List.length_append]
      exact Nat.le_add_right _ _

theorem passable_append (here components components' : List Name) :
    w.passable here (components ++ components') =
      (w.passable here components && w.passable (components.foldl normalStep here) components') := by
  induction components generalizing here with
  | nil =>
    rw [List.nil_append, List.foldl_nil, World.passable]
    cases components' <;> simp [World.passable]
  | cons c components ih =>
    rw [List.cons_append, World.passable, World.passable, List.foldl_cons, ih, Bool.and_assoc]

/-- Names may be followed if the text of the last object is not too long. -/
theorem passable_names (hnames : Names names)
    (hdots : ∀ n ∈ names, n ≠ ascii "." ∧ n ≠ ascii "..")
    (hfits : w.fits (pathText (b ++ names)) = true) : w.passable b names = true := by
  induction names generalizing b with
  | nil =>
    rw [List.append_nil] at hfits
    exact hfits
  | cons n names ih =>
    obtain ⟨hn, hnames⟩ := List.forall_mem_cons.mp hnames
    obtain ⟨hdot, hdots⟩ := List.forall_mem_cons.mp hdots
    have hstep : normalStep b n = b ++ [n] := by
      rw [normalStep, if_neg (not_or.mpr ⟨hn.1, hdot.1⟩), if_neg hdot.2]
    have hhere := fits_of_length_le hfits (length_pathText_append b (n :: names))
    rw [World.passable, hhere, Bool.true_and, hstep]
    refine ih hnames hdots ?_
    rw [← List.append_cons]
    exact hfits

/-- The text of the object that was found is not too long. -/
theorem fits_of_realpath (h : w.realpath path = some o) : w.fits (pathText o) = true := by
  rw [resolve_eq_some (resolve_of_realpath h), World.normal]
  rw [World.realpath] at h
  split at h
  · next hpass =>
    rw [← List.append_nil (path.splitOn 47), passable_append, Bool.and_eq_true] at hpass
    exact hpass.2
  · cases h

/-- Names behind a path and a further slash lead to the entry, if its text is not too long. -/
theorem realpath_append_flat {t : Tree} (hbase : w.realpath base = some b) (hnames : Names names)
    (hdots : ∀ n ∈ names, n ≠ ascii "." ∧ n ≠ ascii "..")
    (hfind : w.root.find (b ++ names) = some t) (hne : names ≠ [])
    (hfits : w.fits (pathText (b ++ names)) = true) :
    w.realpath (base ++ 47 :: flat names) = some (b ++ names) := by
  have hresolve := resolve_of_realpath hbase
  have hb := resolve_eq_some hresolve
  have hstart : w.start (base ++ 47 :: flat names) = w.start base := by
    obtain ⟨c, base, rfl⟩ := List.exists_cons_of_ne_nil (resolve_ne_nil hresolve)
    rfl
  have hcomponents : (base ++ 47 :: flat names).splitOn 47 = base.splitOn 47 ++ [] :: names := by
    have hslash : base ++ 47 :: flat names = (base ++ [47]) ++ flat names := List.append_cons _ _ _
    rw [hslash, splitOn_append_flat hnames, List.splitOn_append_cons_self, List.splitOn_nil,
      List.append_assoc, List.singleton_append]
  have hpass : w.passable (w.start base) (base.splitOn 47) = true := by
    rw [World.realpath] at hbase
    split at hbase
    · assumption
    · cases hbase
  have hbehind : w.passable b ([] :: names) = true := by
    rw [World.passable, fits_of_realpath hbase, Bool.true_and]
    exact passable_names hnames hdots hfits
  have hwhole : w.resolve (base ++ 47 :: flat names) = some (b ++ names) := by
    obtain ⟨n, names, rfl⟩ := List.exists_cons_of_ne_nil hne
    rw [flat_cons, resolve_slash, ← flat_cons]
    exact resolve_append_flat hresolve hnames hdots hfind
  rw [World.normal] at hb
  rw [World.realpath, hstart, hcomponents, passable_append, hpass, ← hb, hbehind, hwhole]
  rfl

end Lengths

/-- Compared texts of paths: the first names are equal, or the shorter text ends in its name. -/
theorem append_flat_isPrefix {x y : Name} {b o : List Name} (hx : 47 ∉ x) (hy : 47 ∉ y) :
    x ++ flat b <+: y ++ flat o ↔ (b = [] ∧ x <+: y) ∨ (x = y ∧ flat b <+: flat o) := by
  constructor
  · rintro ⟨rest, hrest⟩
    rw [List.append_assoc] at hrest
    rcases List.append_eq_append_iff.mp hrest with ⟨m, hm, ho⟩ | ⟨m, hm, ho⟩
    · cases m with
      | nil =>
        rw [List.append_nil] at hm
        exact .inr ⟨hm.symm, ⟨rest, ho⟩⟩
      | cons c m =>
        cases b with
        | nil => exact .inl ⟨rfl, ⟨c :: m, hm.symm⟩⟩
        | cons n b =>
          rw [flat_cons, List.cons_append, List.cons_append] at ho
          rw [hm, ← (List.cons_eq_cons.mp ho).1] at hy
          exact absurd (List.mem_append_right x List.mem_cons_self) hy
    · cases m with
      | nil =>
        rw [List.append_nil] at hm
        exact .inr ⟨hm, ⟨rest, ho.symm⟩⟩
      | cons c m =>
        rw [hm, flat_head ho] at hx
        exact absurd (List.mem_append_right y List.mem_cons_self) hx
  · rintro (⟨rfl, hinitial⟩ | ⟨rfl, hinitial⟩)
    · have hx' : x ++ flat [] = x := List.append_nil x
      rw [hx']
      exact hinitial.trans (List.prefix_append _ _)
    · exact (List.prefix_append_right_inj x).mpr hinitial

theorem extendsName_cons {x y : Name} {b o : List Name} :
    ExtendsName (x :: b) (y :: o) ↔
      (b = [] ∧ ∃ ext, ext ≠ [] ∧ y = x ++ ext) ∨ (x = y ∧ ExtendsName b o) := by
  constructor
  · rintro ⟨parent, name, ext, rest, hb, hext, ho⟩
    cases parent with
    | nil =>
      obtain ⟨rfl, rfl⟩ := List.cons_eq_cons.mp hb
      obtain ⟨rfl, _⟩ := List.cons_eq_cons.mp ho
      exact .inl ⟨rfl, ext, hext, rfl⟩
    | cons p parent =>
      obtain ⟨rfl, rfl⟩ := List.cons_eq_cons.mp hb
      obtain ⟨rfl, rfl⟩ := List.cons_eq_cons.mp ho
      exact .inr ⟨rfl, parent, name, ext, rest, rfl, hext, rfl⟩
  · rintro (⟨rfl, ext, hext, rfl⟩ | ⟨rfl, parent, name, ext, rest, rfl, hext, rfl⟩)
    · exact ⟨[], x, ext, o, rfl, hext, rfl⟩
    · exact ⟨x :: parent, name, ext, rest, rfl, hext, rfl⟩

/-- A path whose text begins with the text of the base lies at or below the base, or at or
below a sibling with a longer name. -/
theorem flat_prefix_iff {b o : List Name} (hb : Names b) (ho : Names o) :
    flat b <+: flat o ↔ b <+: o ∨ ExtendsName b o := by
  induction b generalizing o with
  | nil => exact ⟨fun _ => .inl (List.nil_prefix), fun _ => List.nil_prefix⟩
  | cons x b ih =>
    obtain ⟨hx, hb⟩ := List.forall_mem_cons.mp hb
    cases o with
    | nil =>
      constructor
      · exact fun h => absurd (List.prefix_nil.mp h) (by rw [flat_cons]; exact List.cons_ne_nil _ _)
      · rintro (h | ⟨parent, _, _, _, _, _, ho⟩)
        · exact absurd (List.prefix_nil.mp h) (List.cons_ne_nil _ _)
        · exact absurd ho.symm (List.append_ne_nil_of_right_ne_nil _ (List.cons_ne_nil _ _))
    | cons y o =>
      obtain ⟨hy, ho⟩ := List.forall_mem_cons.mp ho
      rw [flat_cons, flat_cons, List.cons_prefix_cons, append_flat_isPrefix hx.2 hy.2,
        List.cons_prefix_cons, extendsName_cons, ih hb ho]
      constructor
      · rintro ⟨_, ⟨rfl, ext, rfl⟩ | ⟨rfl, h | h⟩⟩
        · by_cases hext : ext = []
          · rw [hext, List.append_nil]
            exact .inl ⟨rfl, List.nil_prefix⟩
          · exact .inr (.inl ⟨rfl, ext, hext, rfl⟩)
        · exact .inl ⟨rfl, h⟩
        · exact .inr (.inr ⟨rfl, h⟩)
      · rintro (⟨rfl, h⟩ | ⟨rfl, ext, _, rfl⟩ | ⟨rfl, h⟩)
        · exact ⟨rfl, .inr ⟨rfl, .inl h⟩⟩
        · exact ⟨rfl, .inl ⟨rfl, ⟨ext, rfl⟩⟩⟩
        · exact ⟨rfl, .inr ⟨rfl, .inr h⟩⟩

/-- An object at or below the base is not below a sibling of it. -/
theorem not_extendsName_of_isPrefix {b o : List Name} (h : b <+: o) : ¬ExtendsName b o := by
  rintro ⟨parent, name, ext, rest, rfl, hext, rfl⟩
  rw [List.prefix_append_right_inj, List.cons_prefix_cons] at h
  exact hext (List.self_eq_append_right.mp h.1)

/-- The test of a text prefix, on resolved paths. -/
theorem pathText_prefix_iff {b o : List Name} (hb : Names b) (ho : Names o) :
    pathText b <+: pathText o ↔ b <+: o ∨ ExtendsName b o := by
  cases b with
  | nil =>
    have hslash : pathText [] <+: pathText o := by
      cases o with
      | nil => exact List.prefix_rfl
      | cons n o =>
        rw [pathText_of_ne_nil (List.cons_ne_nil _ _), flat_cons]
        exact List.prefix_append [47] _
    exact ⟨fun _ => .inl List.nil_prefix, fun _ => hslash⟩
  | cons x b =>
    rw [pathText_of_ne_nil (List.cons_ne_nil _ _)]
    by_cases hnil : o = []
    · subst hnil
      have hx := (hb x List.mem_cons_self).1
      have hnot : ¬flat (x :: b) <+: pathText [] := by
        rw [flat_cons, pathText, if_pos rfl, List.cons_prefix_cons, List.prefix_nil]
        exact fun h => hx (List.append_eq_nil_iff.mp h.2).1
      have hflat : ¬flat (x :: b) <+: flat [] := by
        rw [flat_cons]
        exact fun h => List.cons_ne_nil _ _ (List.prefix_nil.mp h)
      exact ⟨fun h => absurd h hnot, fun h => absurd ((flat_prefix_iff hb ho).mpr h) hflat⟩
    · rw [pathText_of_ne_nil hnil]
      exact flat_prefix_iff hb ho

theorem Within.isPrefix {b o : List Name} (hb : Names b) (ho : Names o) (h : Within b o) :
    b <+: o := by
  have hext : pathText b <+: pathText o → ¬b <+: o → ∃ parent name ext rest,
      b = parent ++ [name] ∧ ext ≠ [] ∧ o = parent ++ (name ++ ext) :: rest := fun hinitial hnot =>
    ((pathText_prefix_iff hb ho).mp hinitial).resolve_left hnot
  by_contra hnot
  rcases h with heq | hslash
  · obtain ⟨parent, name, ext, rest, rfl, hne, rfl⟩ := hext (heq ▸ List.prefix_rfl) hnot
    -- The longer name makes the text longer.
    have hlen := congrArg List.length heq
    rw [pathText_of_ne_nil (by simp), pathText_of_ne_nil (by simp)] at hlen
    simp only [flat_append, flat_cons, flat_nil, List.length_append, List.length_cons,
      List.length_nil] at hlen
    have hpos := List.length_pos_of_ne_nil hne
    omega
  · by_cases hbase : b = []
    · exact hnot (hbase ▸ List.nil_prefix)
    · have hinitial : pathText b <+: pathText o := by
        rw [pathText_of_ne_nil hbase]
        exact (List.prefix_append _ _).trans hslash
      obtain ⟨parent, name, ext, rest, rfl, hne, rfl⟩ := hext hinitial hnot
      -- Behind the name stands more of it and no slash.
      obtain ⟨c, ext, rfl⟩ := List.exists_cons_of_ne_nil hne
      rw [pathText_of_ne_nil (by simp)] at hslash
      simp only [flat_append, flat_cons, List.append_assoc, List.cons_append,
        List.prefix_append_right_inj, List.cons_prefix_cons, true_and] at hslash
      have hslash' : 47 = c := (List.cons_prefix_cons.mp hslash).1
      have hname := (ho (name ++ c :: ext) (by simp)).2
      exact hname (hslash' ▸ List.mem_append_right _ List.mem_cons_self)

theorem within_of_isPrefix {b o : List Name} (h : b <+: o) : Within b o := by
  obtain ⟨rest, rfl⟩ := h
  cases rest with
  | nil => exact .inl (by rw [List.append_nil])
  | cons n rest =>
    refine .inr ?_
    rw [pathText_of_ne_nil (by simp), flat_append, flat_cons]
    exact ⟨n ++ flat rest, by rw [List.append_assoc]; rfl⟩

/-- The text says whether an object lies at or below the base. -/
theorem within_iff {b o : List Name} (hb : Names b) (ho : Names o) : Within b o ↔ b <+: o :=
  ⟨Within.isPrefix hb ho, within_of_isPrefix⟩

end PathTree
