import Lineage.Config
import Lineage.Export
import Lineage.Proofs.Text
import Mathlib.Data.List.Induction
import Mathlib.Data.List.Nodup
/-! # Where an export is written

The folder of a project's documents is the base folder with one name after it. That name holds no
slash, so it leads right into the base folder, unless it is one of the two names that mean that
folder itself and the folder around it. Main statements: `isChild_join_iff`, `write_eq`,
`directory_inside_iff`.
-/
namespace Lineage

namespace Path

/-- A name that leads from a folder to what stands right inside of it. -/
structure IsOrdinary (name : String) : Prop where
  slashless : '/' ∉ name.toList
  ne_empty : name ≠ ""
  ne_dot : name ≠ "."
  ne_dots : name ≠ ".."

/-- The components of something right inside a folder. -/
def Components.child (c : Components) (name : String) : Components :=
  { c with names := c.names ++ [name] }

/-- One path is another one with exactly one ordinary name after it. -/
def IsChild (base path : String) : Prop :=
  ∃ name, IsOrdinary name ∧ components path = (components base).child name

/-- What stands between the slashes of a path. -/
def segments (path : String) : List String := (Text.pieces (· == '/') path).filter (· ≠ "")

theorem components_eq (path : String) : components path =
    if isAbsolute path then ⟨true, (segments path).filter (· ≠ ".")⟩
    else if (segments path).head? = some "." then
      ⟨false, "." :: (segments path).filter (· ≠ ".")⟩
    else ⟨false, (segments path).filter (· ≠ ".")⟩ := rfl

theorem ne_empty_of_mem_components {path name : String} (h : name ∈ (components path).names) :
    name ≠ "" := by
  have hseg : ∀ x ∈ (segments path).filter (· ≠ "."), x ≠ "" := by
    intro x hx
    simpa using (List.mem_filter.mp (List.mem_filter.mp hx).1).2
  rw [components_eq] at h
  split at h
  · exact hseg name h
  · split at h
    · rcases List.mem_cons.mp h with rfl | h
      · decide
      · exact hseg name h
    · exact hseg name h

section Join
variable {base name : String}

theorem not_isAbsolute (hs : '/' ∉ name.toList) : isAbsolute name = false := by
  rw [isAbsolute, Text.startsWith, ← Bool.not_eq_true, List.isPrefixOf_iff_prefix]
  exact fun hp => hs (hp.subset (by decide))

/-- A path below a base, by its characters: there is one slash between them. -/
theorem join_cases (base : String) (hs : '/' ∉ name.toList) :
    base = "" ∧ join base name = name ∨
      (∃ b, base = b ++ "/" ∧ join base name = b ++ "/" ++ name) ∨
      base ≠ "" ∧ join base name = base ++ "/" ++ name := by
  rw [join, if_neg (by simp [not_isAbsolute hs])]
  split
  · exact .inl ⟨‹_›, rfl⟩
  · rename_i hne
    split
    · rename_i hend
      rw [Text.endsWith, List.isSuffixOf_iff_suffix] at hend
      obtain ⟨b, hb⟩ := hend
      obtain rfl : base = String.ofList b ++ "/" := by
        rw [← String.toList_inj, ← hb]
        simp
      exact .inr (.inl ⟨_, rfl, rfl⟩)
    · exact .inr (.inr ⟨hne, rfl⟩)

theorem pieces_append (b name : String) (hs : '/' ∉ name.toList) :
    Text.pieces (· == '/') (b ++ "/" ++ name) = Text.pieces (· == '/') b ++ [name] := by
  have hlist : (b ++ "/" ++ name).toList = b.toList ++ '/' :: name.toList := by simp
  rw [Text.pieces, hlist, Text.piecesChars_append _ _ _ (by rfl),
    Text.piecesChars_of_not_mem hs, List.map_append]
  simp [Text.pieces]

/-- The base itself keeps its pieces, but for an empty one after a slash at its end. -/
theorem pieces_join (base : String) (hs : '/' ∉ name.toList) :
    ∃ ps, Text.pieces (· == '/') (join base name) = ps ++ [name] ∧
      (Text.pieces (· == '/') base = ps ∨ Text.pieces (· == '/') base = ps ++ [""]) := by
  rcases join_cases base hs with ⟨rfl, hj⟩ | ⟨b, rfl, hj⟩ | ⟨-, hj⟩
  · refine ⟨[], by rw [hj, Text.pieces_of_not_mem hs]; rfl, .inr ?_⟩
    exact Text.pieces_of_not_mem (by simp)
  · refine ⟨Text.pieces (· == '/') b, by rw [hj, pieces_append b name hs], .inr ?_⟩
    simpa using pieces_append b "" (by simp)
  · exact ⟨Text.pieces (· == '/') base, by rw [hj, pieces_append base name hs], .inl rfl⟩

theorem segments_join (hs : '/' ∉ name.toList) (hne : name ≠ "") :
    segments (join base name) = segments base ++ [name] := by
  obtain ⟨ps, hj, hb⟩ := pieces_join base hs
  have hps : segments base = ps.filter (· ≠ "") := by
    rcases hb with hb | hb
    · rw [segments, hb]
    · rw [segments, hb, List.filter_append]
      simp
  rw [hps, segments, hj, List.filter_append]
  simp [hne]

theorem isAbsolute_append {b : String} (hb : b ≠ "") (rest : String) :
    isAbsolute (b ++ rest) = isAbsolute b := by
  obtain ⟨c, cs, hc⟩ : ∃ c cs, b.toList = c :: cs :=
    List.exists_cons_of_ne_nil fun h => hb (String.toList_eq_nil_iff.mp h)
  rw [isAbsolute, isAbsolute, Text.startsWith, Text.startsWith, String.toList_append, hc]
  simp [List.isPrefixOf]

theorem isAbsolute_join (hs : '/' ∉ name.toList) :
    isAbsolute (join base name) = isAbsolute base := by
  rcases join_cases base hs with ⟨rfl, hj⟩ | ⟨b, rfl, hj⟩ | ⟨hne, hj⟩
  · rw [hj, not_isAbsolute hs]
    rfl
  · rw [hj]
    exact isAbsolute_append (by simp) name
  · rw [hj, String.append_assoc]
    exact isAbsolute_append hne _

theorem segments_ne_nil {b : String} (hb : b ≠ "") (ha : isAbsolute b = false) :
    segments b ≠ [] := by
  obtain ⟨c, cs, hc⟩ : ∃ c cs, b.toList = c :: cs :=
    List.exists_cons_of_ne_nil fun h => hb (String.toList_eq_nil_iff.mp h)
  have hslash : (c == '/') = false := by
    rw [isAbsolute, Text.startsWith, hc] at ha
    have hne : ('/' == c) = false := by simpa [List.isPrefixOf] using ha
    rw [Bool.beq_comm]
    exact hne
  have hmem : ∃ s ∈ Text.pieces (· == '/') b, s ≠ "" := by
    rw [Text.pieces, hc, Text.piecesChars, if_neg (by simp [hslash])]
    split
    · exact ⟨_, List.mem_cons_self, by simp⟩
    · exact ⟨_, List.mem_cons_self, by simp⟩
  obtain ⟨s, hs, hne⟩ := hmem
  exact List.ne_nil_of_mem (List.mem_filter.mpr ⟨hs, by simpa using hne⟩)

theorem components_join (hs : '/' ∉ name.toList) (hne : name ≠ "") : components (join base name) =
    if name = "." ∧ base ≠ "" then components base else (components base).child name := by
  rw [components_eq, components_eq, isAbsolute_join hs, segments_join hs hne, List.filter_append]
  by_cases hdot : name = "."
  · subst hdot
    by_cases hb : base = ""
    · subst hb
      rfl
    · rw [if_pos (show "." = "." ∧ base ≠ "" from ⟨rfl, hb⟩)]
      cases ha : isAbsolute base with
      | true => simp
      | false =>
        obtain ⟨s, ss, hseg⟩ := List.exists_cons_of_ne_nil (segments_ne_nil hb ha)
        simp [hseg]
  · have hhead : (segments base ++ [name]).head? = some "." ↔
        (segments base).head? = some "." := by
      cases segments base with
      | nil => simpa using hdot
      | cons s ss => rfl
    rw [if_neg (show ¬(name = "." ∧ base ≠ "") from fun h => hdot h.1)]
    have hname : [name].filter (· ≠ ".") = [name] := by simp [hdot]
    simp only [hhead, hname]
    split
    · rfl
    · split <;> rfl

/-- A name leads right into the base, unless it means the base itself or the folder around it. -/
theorem isChild_join_iff (hs : '/' ∉ name.toList) (hne : name ≠ "") :
    IsChild base (join base name) ↔ name ≠ "." ∧ name ≠ ".." := by
  have hchild : ∀ {c : Components} {x y : String}, c.child x = c.child y → x = y := by
    intro c x y h
    simpa using (Components.mk.inj h).2
  constructor
  · rintro ⟨part, hpart, hc⟩
    rw [components_join hs hne] at hc
    split at hc
    · have hlen := congrArg (fun c : Components => c.names.length) hc
      simp [Components.child] at hlen
    · obtain rfl := hchild hc
      exact ⟨hpart.ne_dot, hpart.ne_dots⟩
  · rintro ⟨hdot, hdots⟩
    refine ⟨name, ⟨hs, hne, hdot, hdots⟩, ?_⟩
    rw [components_join hs hne, if_neg fun h => hdot h.1]

end Join

end Path

/-! ## Writing below the base -/

namespace FileTree

/-- Goes along a written path, making folders where there is nothing. -/
def reach? (t : FileTree) (start path : String) : Option (FileTree × String) :=
  (Text.pieces (· == '/') path).foldlM enterNew? (t, if Path.isAbsolute path then "" else start)

variable {t t' : FileTree} {start base name here here' path q : String} {c : Content}

theorem file?_write : (t.write path c).file? q = if q = path then some c else t.file? q :=
  TextMap.get?_insert t.files path q c

theorem files_enterNew? (h : enterNew? (t, here) name = some (t', here')) : t'.files = t.files := by
  rw [enterNew?] at h
  split at h
  · cases h
    rfl
  · split at h
    · cases h
      rfl
    · dsimp only at h
      split at h
      · cases h
      · cases h
        rfl

theorem files_foldlM_enterNew? {ps : List String}
    (h : ps.foldlM enterNew? (t, here) = some (t', here')) : t'.files = t.files := by
  induction ps generalizing t here with
  | nil =>
    cases h
    rfl
  | cons p ps ih =>
    rw [List.foldlM_cons] at h
    obtain ⟨⟨u, there⟩, hu, h⟩ := Option.bind_eq_some_iff.mp h
    exact (ih h).trans (files_enterNew? hu)

theorem enterNew?_empty (s : FileTree × String) : enterNew? s "" = some s := rfl

theorem enterNew?_ordinary (hn : Path.IsOrdinary name)
    (h : enterNew? (t, here) name = some (t', here')) : here' = Path.below here name := by
  rw [enterNew?, if_neg (by simp [hn.ne_empty, hn.ne_dot]), if_neg hn.ne_dots] at h
  dsimp only at h
  split at h
  · cases h
  · cases h
    rfl

theorem makeFolders?_join (hn : Path.IsOrdinary name) :
    t.makeFolders? start (Path.join base name) =
      (t.reach? start base).bind fun s => enterNew? s name := by
  obtain ⟨ps, hj, hb⟩ := Path.pieces_join base hn.slashless
  have hreach : t.reach? start base =
      ps.foldlM enterNew? (t, if Path.isAbsolute base then "" else start) := by
    rcases hb with hb | hb
    · rw [reach?, hb]
    · rw [reach?, hb, List.foldlM_append]
      simp [enterNew?_empty]
  have hlast : ∀ b : String, Path.join base name ≠ b ++ "/" ++ "." := by
    intro b he
    have hp := Path.pieces_append b "." (by decide)
    rw [← he, hj] at hp
    exact hn.ne_dot (List.append_singleton_inj.mp hp).2
  have hdot : (Path.join base name = "." || Text.endsWith "/." (Path.join base name)) = false := by
    rw [Bool.or_eq_false_iff, decide_eq_false_iff_not]
    constructor
    · intro he
      rw [he, Text.pieces_of_not_mem (by decide)] at hj
      have hj' : [] ++ ["."] = ps ++ [name] := hj
      exact hn.ne_dot (List.append_singleton_inj.mp hj').2.symm
    · rw [Text.endsWith, ← Bool.not_eq_true, List.isSuffixOf_iff_suffix]
      rintro ⟨b, hb⟩
      refine hlast (String.ofList b) (String.toList_inj.mp ?_)
      rw [← hb]
      simp
  rw [makeFolders?, if_neg (by simp [hdot]), hj, Path.isAbsolute_join hn.slashless, hreach,
    List.foldlM_append]
  congr 1
  funext s
  simp

end FileTree

namespace Export

theorem toList_folderName (project : String) : (folderName project).toList =
    project.toList.map fun c => if c = '/' ∨ c = '\\' ∨ c = ':' then '_' else c :=
  String.toList_map

theorem slashless_folderName (project : String) : '/' ∉ (folderName project).toList := by
  rw [toList_folderName]
  intro h
  obtain ⟨c, -, hc⟩ := List.mem_map.mp h
  split at hc
  · exact absurd hc (by decide)
  · rename_i hne
    exact hne (.inl hc)

theorem folderName_eq_iff {project name : String}
    (h : ∀ c ∈ name.toList, c ≠ '_' ∧ c ≠ '/' ∧ c ≠ '\\' ∧ c ≠ ':') :
    folderName project = name ↔ project = name := by
  rw [← String.toList_inj, ← String.toList_inj, toList_folderName]
  generalize project.toList = cs
  generalize name.toList = ns at h
  induction cs generalizing ns with
  | nil => simp
  | cons c cs ih =>
    cases ns with
    | nil => simp
    | cons n ns =>
      obtain ⟨hn, hns⟩ := List.forall_mem_cons.mp h
      rw [List.map_cons, List.cons.injEq, List.cons.injEq, ih ns hns]
      refine and_congr_left fun _ => ?_
      split
      · rename_i hc
        constructor
        · exact fun he => absurd he.symm hn.1
        · rintro rfl
          rcases hc with hc | hc | hc
          · exact absurd hc hn.2.1
          · exact absurd hc hn.2.2.1
          · exact absurd hc hn.2.2.2
      · exact Iff.rfl

theorem folderName_ne_empty {project : String} (h : project ≠ "") : folderName project ≠ "" :=
  fun he => h ((folderName_eq_iff (by simp)).mp he)

theorem isChild_directory_iff (baseDir : String) {project : String} (h : project ≠ "") :
    Path.IsChild baseDir (directory baseDir project) ↔ project ≠ "." ∧ project ≠ ".." := by
  rw [directory, Path.isChild_join_iff (slashless_folderName project) (folderName_ne_empty h)]
  exact and_congr (not_congr (folderName_eq_iff (by simp)))
    (not_congr (folderName_eq_iff (by simp)))

theorem isOrdinary_folderName {project : String} (h : project ≠ "") (hdot : project ≠ ".")
    (hdots : project ≠ "..") : Path.IsOrdinary (folderName project) where
  slashless := slashless_folderName project
  ne_empty := folderName_ne_empty h
  ne_dot he := hdot ((folderName_eq_iff (by simp)).mp he)
  ne_dots he := hdots ((folderName_eq_iff (by simp)).mp he)

/-- Files are changed in one folder only, and if all goes well each of the given ones is there. -/
structure Writes (place : String) (files : List (String × String)) (t t' : FileTree)
    (r : Except Failure Unit) : Prop where
  confined : ∀ q, t'.file? q ≠ t.file? q → ∃ f ∈ files, q = Path.below place f.1
  written : r = .ok () → (files.map fun f => Path.below place f.1).Nodup →
    ∀ f ∈ files, t'.file? (Path.below place f.1) = some (.text f.2)

def writeNext (place shown : String) (s : Except Failure Unit × FileTree) (f : String × String) :
    Except Failure Unit × FileTree :=
  match s.1 with
  | .error e => (.error e, s.2)
  | .ok () =>
    match writeOne place shown s.2 f with
    | .ok t => (.ok (), t)
    | .error e => (.error e, s.2)

theorem write_eq (t : FileTree) (start baseDir : String) (files : List (String × String))
    (project : String) : write t start baseDir files project =
      match t.makeFolders? start (directory baseDir project) with
      | none => (.error ⟨directory baseDir project⟩, t)
      | some (t, place) =>
        files.foldl (writeNext place (directory baseDir project)) (.ok (), t) := by
  rw [write]
  cases t.makeFolders? start (directory baseDir project) with
  | none => rfl
  | some s => rfl

section Writes
variable {place shown : String} {files : List (String × String)} {t t' : FileTree}
  {r : Except Failure Unit}

theorem writes_nil (t : FileTree) : Writes place [] t t r :=
  ⟨fun _ h => absurd rfl h, fun _ _ => List.forall_mem_nil _⟩

theorem Writes.snoc (h : Writes place files t t' r) (f : String × String) :
    Writes place (files ++ [f]) t (writeNext place shown (r, t') f).2
      (writeNext place shown (r, t') f).1 := by
  have hfailed : ∀ e, Writes place (files ++ [f]) t t' (.error e) := fun e =>
    ⟨fun q hq => by
      obtain ⟨g, hg, he⟩ := h.confined q hq
      exact ⟨g, List.mem_append_left _ hg, he⟩, nofun⟩
  cases r with
  | error e => exact hfailed e
  | ok _ =>
    rw [writeNext, writeOne]
    dsimp only
    split
    · rename_i u hu
      split at hu
      · cases hu
      cases hu
      refine ⟨fun q hq => ?_, fun _ hnodup g hg => ?_⟩
      · by_cases he : q = Path.below place f.1
        · exact ⟨f, List.mem_append_right _ List.mem_cons_self, he⟩
        · rw [FileTree.writeText, FileTree.file?_write, if_neg he] at hq
          obtain ⟨g, hg, he⟩ := h.confined q hq
          exact ⟨g, List.mem_append_left _ hg, he⟩
      · rw [List.map_append, List.nodup_append] at hnodup
        rw [FileTree.writeText, FileTree.file?_write]
        rcases List.mem_append.mp hg with hg | hg
        · rw [if_neg (hnodup.2.2 _ (List.mem_map_of_mem hg) _ List.mem_cons_self)]
          exact h.written rfl hnodup.1 g hg
        · rw [List.mem_singleton.mp hg, if_pos rfl]
    · exact hfailed _

theorem writes_foldl (place shown : String) (files : List (String × String)) (t : FileTree) :
    Writes place files t (files.foldl (writeNext place shown) (.ok (), t)).2
      (files.foldl (writeNext place shown) (.ok (), t)).1 := by
  induction files using List.reverseRecOn with
  | nil => exact writes_nil t
  | append_singleton files f ih =>
    rw [List.foldl_append]
    exact ih.snoc f

end Writes

theorem fst_texts (e : Export) (pretty : Bool) (time : String) : (e.texts pretty time).map (·.1) =
    [nodesFile, edgesFile, versionsFile, summaryFile] := rfl

theorem below_injective {place a b : String} (ha : a ≠ "") (hb : b ≠ "")
    (h : Path.below place a = Path.below place b) : a = b := by
  rw [Path.below, Path.below, if_neg ha, if_neg hb] at h
  split at h
  · exact h
  · simpa using h

theorem nodup_places (e : Export) (pretty : Bool) (time place : String) :
    ((e.texts pretty time).map fun f => Path.below place f.1).Nodup := by
  have hmap : (e.texts pretty time).map (fun f => Path.below place f.1) =
      [nodesFile, edgesFile, versionsFile, summaryFile].map (Path.below place) := by
    rw [← fst_texts e pretty time, List.map_map]
    rfl
  have hne : ∀ x ∈ [nodesFile, edgesFile, versionsFile, summaryFile], x ≠ "" := by decide
  have hnodup : [nodesFile, edgesFile, versionsFile, summaryFile].Nodup := by decide
  rw [hmap]
  exact hnodup.map_on fun x hx y hy he => below_injective (hne x hx) (hne y hy) he

/-- Nothing changes but files in the folder of a name right inside the base folder, wherever that
lies; and if all goes well the files are there. -/
structure StaysInside (t : FileTree) (start baseDir name : String) (files : List (String × String))
    (after : Except Failure Unit × FileTree) : Prop where
  confined : ∀ q, after.2.file? q ≠ t.file? q →
    ∃ t₁ base, t.reach? start baseDir = some (t₁, base) ∧
      ∃ f ∈ files, q = Path.below (Path.below base name) f.1
  complete : after.1 = .ok () → ∃ t₁ base, t.reach? start baseDir = some (t₁, base) ∧
    ∀ f ∈ files, after.2.file? (Path.below (Path.below base name) f.1) = some (.text f.2)

theorem staysInside_write (t : FileTree) (start baseDir : String) {files : List (String × String)}
    {project : String} (hn : Path.IsOrdinary (folderName project))
    (hfiles : ∀ place, (files.map fun f => Path.below place f.1).Nodup) :
    StaysInside t start baseDir (folderName project) files
      (write t start baseDir files project) := by
  rw [write_eq, directory, FileTree.makeFolders?_join hn]
  cases hbase : t.reach? start baseDir with
  | none => exact ⟨fun q hq => absurd rfl hq, nofun⟩
  | some s =>
    obtain ⟨t₁, base⟩ := s
    rw [Option.bind_some]
    cases hplace : FileTree.enterNew? (t₁, base) (folderName project) with
    | none => exact ⟨fun q hq => absurd rfl hq, nofun⟩
    | some u =>
      obtain ⟨t₂, place⟩ := u
      obtain rfl := FileTree.enterNew?_ordinary hn hplace
      have hsame : ∀ q, t₂.file? q = t.file? q := by
        intro q
        rw [FileTree.file?, FileTree.files_enterNew? hplace, FileTree.files_foldlM_enterNew? hbase]
        rfl
      have hw := writes_foldl (Path.below base (folderName project))
        (Path.join baseDir (folderName project)) files t₂
      exact ⟨fun q hq => ⟨t₁, base, hbase, hw.confined q (by rwa [hsame])⟩,
        fun hr => ⟨t₁, base, hbase, hw.written hr (hfiles _)⟩⟩

end Export

theorem Config.projectName_ne_empty (c : Config) (resolve : String → Option String) :
    c.projectName resolve ≠ "" := by
  rw [projectName]
  split
  · rename_i n hn
    obtain ⟨-, hne⟩ := Option.filter_eq_some_iff.mp hn
    simpa using hne
  · cases hf : Path.fileName? ((resolve c.project.path).getD c.project.path) with
    | none => exact nofun
    | some name =>
      rw [Path.fileName?] at hf
      split at hf
      · rename_i last hlast
        split at hf
        · cases hf
        · cases hf
          exact Path.ne_empty_of_mem_components (List.mem_of_getLast? hlast)
      · cases hf

namespace Export

/-- The folder of a project's documents lies right in the configured folder just when the project's
name is neither a dot nor two dots; and then nothing outside of it is touched. -/
theorem directory_inside_iff (c : Config) (resolve : String → Option String) :
    (Path.IsChild c.export.baseDir (directory c.export.baseDir (c.projectName resolve)) ↔
      c.projectName resolve ≠ "." ∧ c.projectName resolve ≠ "..") ∧
    (c.projectName resolve ≠ "." ∧ c.projectName resolve ≠ ".." →
      ∀ (e : Export) (time start : String) (t : FileTree),
        StaysInside t start c.export.baseDir (folderName (c.projectName resolve))
          (e.texts c.export.pretty time)
          (write t start c.export.baseDir (e.texts c.export.pretty time)
            (c.projectName resolve))) := by
  have hne := c.projectName_ne_empty resolve
  refine ⟨isChild_directory_iff _ hne, ?_⟩
  rintro ⟨hdot, hdots⟩ e time start t
  exact staysInside_write t start _ (isOrdinary_folderName hne hdot hdots) (nodup_places e _ time)

def namedConfig (name : String) : Config := { project := { name := some name } }

theorem directory_inside_demo :
    (namedConfig " demo/app ").projectName (fun _ => none) = "demo/app" ∧
      Path.IsChild "./graph_export" "./graph_export/demo_app" ∧
      StaysInside .empty "work" "./graph_export" "demo_app" (texts default true "now")
        (write .empty "work" "./graph_export" (texts default true "now") "demo/app") := by
  have hname : (namedConfig " demo/app ").projectName (fun _ => none) = "demo/app" := by
    decide +kernel
  have hfolder : folderName "demo/app" = "demo_app" := by decide +kernel
  obtain ⟨hiff, hinside⟩ := directory_inside_iff (namedConfig " demo/app ") fun _ => none
  rw [hname] at hiff hinside
  rw [hfolder] at hinside
  have hdirectory : directory "./graph_export" "demo/app" = "./graph_export/demo_app" := by
    decide +kernel
  exact ⟨hname, hdirectory ▸ hiff.mpr (by decide), hinside (by decide) default "now" "work" .empty⟩

/-- Two dots are a name that a project can be given, and its documents are then written beside the
configured folder. -/
theorem directory_outside_dots :
    (namedConfig " .. ").projectName (fun _ => none) = ".." ∧
      ¬Path.IsChild "./graph_export" (directory "./graph_export" "..") ∧
      (write .empty "work" "./graph_export" [(nodesFile, "[]")] "..").2.file? "work/nodes.json" =
        some (.text "[]") := by
  refine ⟨by decide +kernel, ?_, by decide +kernel⟩
  rw [isChild_directory_iff _ (by decide)]
  exact fun h => h.2 rfl

end Export

end Lineage
