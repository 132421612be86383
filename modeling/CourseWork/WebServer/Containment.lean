import CourseWork.WebServer.Request

/-!
# What the web server serves

Which requests make `handle_http_request` open an object outside of its base directory. The
check compares texts without a slash behind the base, and it checks another path than the
one that is opened if the target has no slash at its beginning.
-/

namespace CourseWork.WebServer
open CLib PathTree

/-- An opened object is the resolved base or lies below it. -/
def Response.Contained (w : World) (baseDir : Bytes) (r : Response) : Prop :=
  ∀ o, r.opened = some o → ∃ base, w.resolve baseDir = some base ∧ Within base o

/-- The target does not lead out of the base. Behind a slash it only has to keep away from
siblings with a longer name; another target, or one that is cut, is put together with the
base and taken as one path. -/
def Harmless (w : World) (baseDir target : Bytes) : Prop :=
  if target.head? = some 47 ∧ baseDir.length + target.length < maxPathLen * 2 - 1 then
    ¬ExtendsName (w.normal baseDir) (w.normal (baseDir ++ target))
  else w.normal baseDir <+: w.normal (filePath baseDir target)

/-- The path is short enough and names an object that can be read. Nothing is missing to open
it; a listing takes memory, too. -/
def Servable (w : World) (short : Shortage) (path : Bytes) : Prop :=
  ∃ o t, w.lookup path = some o ∧ w.root.find o = some t ∧ t.readable ∧
    short.openFile = false ∧ (t.isDirectory → short.malloc = false)

section Containment

variable {w : World} {baseDir target : Bytes}

theorem isSafePath_eq_true (h : isSafePath w baseDir target = true) :
    ∃ base o, w.resolve baseDir = some base ∧
      w.resolve (truncated (baseDir ++ 47 :: target)) = some o ∧ pathText base <+: pathText o := by
  rw [isSafePath] at h
  split at h
  · cases h
  · next base hbase =>
    split at h
    · cases h
    · next o ho =>
      exact ⟨base, o, resolve_of_realpath hbase, resolve_of_realpath ho, of_decide_eq_true h⟩

theorem serve_opened {short : Shortage} {path : Bytes} {o : List Name} :
    (serve w short path).opened = some o ↔ w.lookup path = some o ∧ Servable w short path := by
  rw [serve, Servable]
  cases hlookup : w.lookup path with
  | none =>
    refine ⟨nofun, ?_⟩
    rintro ⟨h, _⟩
    cases h
  | some o' =>
    dsimp only
    cases hfind : w.root.find o' with
    | none =>
      refine ⟨nofun, ?_⟩
      rintro ⟨_, _, t, ⟨⟩, ht, _⟩
      rw [hfind] at ht
      cases ht
    | some t =>
      dsimp only
      constructor
      · intro h
        split at h
        · cases h
        · next hreadable =>
          have hreadable' : t.readable := by simpa using hreadable
          split at h
          · split at h
            · cases h
            · next hshort =>
              rw [Bool.or_eq_true, not_or, Bool.not_eq_true, Bool.not_eq_true] at hshort
              cases h
              exact ⟨rfl, _, t, rfl, hfind, hreadable', hshort.2, fun _ => hshort.1⟩
          · next hdir =>
            split at h
            · cases h
            · next hopen =>
              cases h
              exact ⟨rfl, _, t, rfl, hfind, hreadable', Bool.eq_false_iff.mpr hopen,
                fun hdir' => absurd hdir' hdir⟩
      · rintro ⟨⟨⟩, _, t', ⟨⟩, ht', hreadable, hopen, hmalloc⟩
        obtain rfl := Option.some.inj (hfind.symm.trans ht')
        rw [if_neg (by rw [hreadable]; exact Bool.false_ne_true), hopen]
        split
        · next hdir =>
          rw [hmalloc hdir]
          rfl
        · rfl

theorem filePath_of_short (hshort : baseDir.length + target.length < maxPathLen * 2 - 1)
    (hroot : target ≠ ascii "/") : filePath baseDir target = baseDir ++ target := by
  rw [filePath, if_neg hroot, truncated, List.take_of_length_le]
  rw [List.length_append]
  omega

/-- For a checked target that opens an object, the object is inside exactly if the target is
harmless. -/
theorem within_iff_harmless (hsafe : isSafePath w baseDir target = true) {o : List Name}
    (ho : w.resolve (filePath baseDir target) = some o) :
    (∃ base, w.resolve baseDir = some base ∧ Within base o) ↔ Harmless w baseDir target := by
  obtain ⟨base, real, hbase, hreal, hinitial⟩ := isSafePath_eq_true hsafe
  have hnormal := resolve_eq_some hbase
  have hwithin : (∃ base, w.resolve baseDir = some base ∧ Within base o) ↔
      w.normal baseDir <+: w.normal (filePath baseDir target) := by
    rw [← resolve_eq_some ho, ← hnormal]
    have hnames : Names base := hnormal ▸ names_normal w baseDir
    have hnames' : Names o := resolve_eq_some ho ▸ names_normal w _
    rw [← within_iff hnames hnames']
    exact ⟨fun ⟨base', hbase', h⟩ => Option.some.inj (hbase.symm.trans hbase') ▸ h,
      fun h => ⟨base, hbase, h⟩⟩
  rw [hwithin, Harmless]
  split
  · next hslash =>
    obtain ⟨hhead, hshort⟩ := hslash
    obtain ⟨rest, rfl⟩ : ∃ rest, target = 47 :: rest := List.head?_eq_some_iff.mp hhead
    -- Both paths name the object that was checked.
    have hcut : truncated (baseDir ++ 47 :: 47 :: rest) = baseDir ++ 47 :: 47 :: rest := by
      rw [truncated, List.take_of_length_le]
      simp only [List.length_append, List.length_cons] at hshort ⊢
      omega
    rw [hcut, resolve_slash] at hreal
    have hreal' := resolve_eq_some hreal
    rw [hnormal, hreal', pathText_prefix_iff (names_normal w _) (names_normal w _)] at hinitial
    have hfile : w.normal baseDir <+: w.normal (filePath baseDir (47 :: rest)) ↔
        w.normal baseDir <+: w.normal (baseDir ++ 47 :: rest) := by
      by_cases hroot : (47 :: rest : Bytes) = ascii "/"
      · -- The root of the site is the base itself.
        have hbase' : filePath baseDir (47 :: rest) = baseDir := by
          rw [filePath, if_pos hroot, truncated, List.take_of_length_le]
          omega
        obtain rfl : rest = [] := (List.cons_eq_cons.mp hroot).2
        rw [hbase', normal_append_slash (resolve_ne_nil hbase)]
      · rw [filePath_of_short hshort hroot]
    rw [hfile]
    exact ⟨not_extendsName_of_isPrefix, fun h => hinitial.resolve_right h⟩
  · exact Iff.rfl

/-- Exactly the checked targets that are not harmless open an object outside of the base. -/
theorem handle_contained_iff (w : World) (short : Shortage) (req : HttpRequest)
    (request baseDir : Bytes) :
    (handleHttpRequest w short req request baseDir).Contained w baseDir ↔
      ∀ req', parseHttpRequest request req = some req' → req'.method = ascii "GET" →
        isSafePath w baseDir req'.path = true →
          Servable w short (filePath baseDir req'.path) → Harmless w baseDir req'.path := by
  rw [handleHttpRequest]
  cases hparse : parseHttpRequest request req with
  | none => exact ⟨fun _ => nofun, fun _ => nofun⟩
  | some req' =>
    by_cases hget : req'.method = ascii "GET"
    · by_cases hsafe : isSafePath w baseDir req'.path = true
      · have hserve : ∀ o, (serve w short (filePath baseDir req'.path)).opened = some o →
            ((∃ base, w.resolve baseDir = some base ∧ Within base o) ↔
              Harmless w baseDir req'.path) := fun o ho =>
          within_iff_harmless hsafe (resolve_of_lookup (serve_opened.mp ho).1)
        simp only [hget, hsafe, ne_eq, not_true_eq_false, if_false, Bool.not_true,
          Bool.false_eq_true]
        constructor
        · rintro hcontained req'' ⟨⟩ _ _ hservable
          obtain ⟨o, t, ho, hrest⟩ := hservable
          have hopened := serve_opened.mpr ⟨ho, o, t, ho, hrest⟩
          exact (hserve o hopened).mp (hcontained o hopened)
        · intro hharmless o ho
          exact (hserve o ho).mpr (hharmless req' rfl hget hsafe (serve_opened.mp ho).2)
      · rw [Bool.not_eq_true] at hsafe
        simp only [hget, hsafe, ne_eq, not_true_eq_false, if_false, Bool.not_false, if_true]
        refine ⟨fun _ => ?_, fun _ => nofun⟩
        rintro req'' ⟨⟩ _ hsafe'
        rw [hsafe] at hsafe'
        cases hsafe'
    · simp only [hget, ne_eq, not_false_eq_true, if_true]
      refine ⟨fun _ => ?_, fun _ => nofun⟩
      rintro req'' ⟨⟩ hget'
      exact absurd hget' hget

end Containment

/-- A file in the directory `/srv/www-secret`, next to the empty `/srv/www`. -/
def siblingWorld : World where
  root := .directory true [(ascii "srv", .directory true [(ascii "www", .directory true []),
    (ascii "www-secret", .directory true [(ascii "x", .file true)])])]
  cwd := []
  pathMax := some 4096
  cwd_names := nofun

/-- The file is served from `/srv/www`. -/
theorem handle_serves_sibling :
    ¬(handleHttpRequest siblingWorld ⟨false, false⟩ ⟨List.replicate 1056 0⟩
      (ascii "GET /../www-secret/x HTTP/1.1\r\n\r\n") (ascii "/srv/www")).Contained siblingWorld
      (ascii "/srv/www") := by
  have hopened : (handleHttpRequest siblingWorld ⟨false, false⟩ ⟨List.replicate 1056 0⟩
      (ascii "GET /../www-secret/x HTTP/1.1\r\n\r\n") (ascii "/srv/www")).opened =
      some [ascii "srv", ascii "www-secret", ascii "x"] := by decide +kernel
  have hbase : siblingWorld.resolve (ascii "/srv/www") = some [ascii "srv", ascii "www"] := by
    decide +kernel
  intro hcontained
  obtain ⟨base, hbase', hwithin⟩ := hcontained _ hopened
  obtain rfl := Option.some.inj (hbase.symm.trans hbase')
  exact absurd hwithin (by decide +kernel)

end CourseWork.WebServer
