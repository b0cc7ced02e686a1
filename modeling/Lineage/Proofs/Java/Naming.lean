import Lineage.Proofs.Java.Filing
/-! # Names in a project

Files go by their paths, types by their full names, and members by the name of their type, a hash
sign, and what tells them apart inside of it. While the declarations of a project are added, no two
nodes go by one key. Main statements: `Keyed.addType`, `keyed_addFiles`.
-/
namespace Lineage

theorem slashed_eq_self {path : String} (h : '\\' ∉ path.toList) : slashed path = path := by
  rw [slashed, Text.replaceChar, ← String.toList_inj, String.toList_map]
  refine (List.map_congr_left fun c hc => ?_).trans (List.map_id _)
  have hne : c ≠ '\\' := fun he => h (he ▸ hc)
  simp [hne]

namespace Java

/-- A name followed by a hash sign begins no other name. -/
def Separate (names : List String) : Prop :=
  ∀ q ∈ names, ∀ q' ∈ names, ¬(q ++ "#").toList <+: q'.toList

theorem separate_of_hashless {names : List String} (h : ∀ q ∈ names, '#' ∉ q.toList) :
    Separate names := by
  intro q _ q' hq' hle
  refine h q' hq' (hle.subset ?_)
  rw [String.toList_append]
  exact List.mem_append_right _ (List.mem_singleton.mpr rfl)

/-- What precedes the hash sign in a member's name is the name of its type. -/
theorem Separate.eq_of_prefix {names : List String} (h : Separate names) {q q' : String}
    (hq : q ∈ names) (hq' : q' ∈ names) {cs : List Char} (hp : (q ++ "#").toList <+: cs)
    (hp' : (q' ++ "#").toList <+: cs) : q = q' := by
  have hhash : ∀ r : String, (r ++ "#").toList = r.toList ++ ['#'] := fun r => String.toList_append
  have hcancel : (q ++ "#").toList = (q' ++ "#").toList → q = q' := fun he =>
    (String.append_left_inj _).mp (String.toList_inj.mp he)
  rcases List.prefix_or_prefix_of_prefix hp hp' with hle | hle
  · rw [hhash q', List.prefix_concat_iff, ← hhash q'] at hle
    rcases hle with he | hle
    · exact hcancel he
    · exact absurd hle (h q hq q' hq')
  · rw [hhash q, List.prefix_concat_iff, ← hhash q] at hle
    rcases hle with he | hle
    · exact hcancel he.symm
    · exact absurd hle (h q' hq' q hq)

/-- A text can be read back in front of a character that it does not have. -/
theorem eq_of_append_cons {c : Char} {xs ys rs ss : List Char} (hx : c ∉ xs) (hy : c ∉ ys)
    (h : xs ++ c :: rs = ys ++ c :: ss) : xs = ys ∧ rs = ss := by
  have hsplit : ∀ {zs ts : List Char}, c ∉ zs → (zs ++ c :: ts).takeWhile (· ≠ c) = zs := by
    intro zs ts hz
    have hall : ∀ d ∈ zs, (d ≠ c : Bool) := by
      intro d hd
      have hne : d ≠ c := fun he => hz (he ▸ hd)
      simpa using hne
    rw [List.takeWhile_append_of_pos hall]
    simp
  have hxs : xs = ys := by rw [← hsplit hx, h, hsplit hy]
  refine ⟨hxs, ?_⟩
  rw [hxs, List.append_cancel_left_eq, List.cons.injEq] at h
  exact h.2

/-- Files with distinct paths, and with type and field names as the language has them. -/
structure Nameable (files : List FileFacts) : Prop where
  paths_nodup : (files.map (·.path)).Nodup
  slashes : ∀ f ∈ files, '\\' ∉ f.path.toList
  separate : Separate (files.flatMap fun f => f.types.map (·.qualifiedName))
  fields_nodup : ∀ f ∈ files, ∀ t ∈ f.types, (t.fields.map (·.name)).Nodup
  colonless : ∀ f ∈ files, ∀ t ∈ f.types, ∀ x ∈ t.fields, ':' ∉ x.name.toList

namespace Assembly

/-! ## Keys of declarations -/

section Keys
variable (f : FileFacts) (path : String) (t : TypeFacts)

theorem key_fileNode (h : '\\' ∉ f.path.toList) : (fileNode f).key = ⟨.file, f.path⟩ := by
  have hpath : (fileNode f).filePath = f.path := by
    unfold fileNode
    cases f.package <;> rfl
  rw [Node.key, Node.keyText, kind_fileNode]
  simp only [hpath, slashed_eq_self h]

theorem key_typeNode : (typeNode f t).key = ⟨.type, t.qualifiedName⟩ := by
  unfold typeNode
  cases f.package <;> rfl

theorem key_fieldNode (x : FieldFacts) : (fieldNode path t x).key =
    ⟨.field, t.qualifiedName ++ "#" ++ x.name ++ ":" ++ x.type⟩ := by
  have htype : (fieldNode path t x).metadatum Meta.type = some x.type := by
    simp [fieldNode, withLines, Node.withMetadatum, Node.metadatum, Meta.modifiers, Meta.type]
  rw [Node.key, Node.keyText, kind_fieldNode]
  simp only [htype]
  rfl

theorem key_methodNode (m : MethodFacts) : (methodNode path t m).key =
    ⟨.method, t.qualifiedName ++ "#" ++ m.tail⟩ := by
  rw [Node.key, Node.keyText, kind_methodNode]
  unfold methodNode
  cases m.returnType <;> rfl

def memberKeys : List EntityKey :=
  t.fields.map (fun x => (fieldNode path t x).key) ++
    (distinctTails t.methods).map fun m => (methodNode path t m).key

variable {path t}

theorem kind_of_mem_memberKeys {k : EntityKey} (hk : k ∈ memberKeys path t) :
    (k.kind = .method ∨ k.kind = .field) ∧ (t.qualifiedName ++ "#").toList <+: k.text.toList := by
  rcases List.mem_append.mp hk with hk | hk
  · obtain ⟨x, -, rfl⟩ := List.mem_map.mp hk
    rw [key_fieldNode]
    refine ⟨.inr rfl, ?_⟩
    simp [String.toList_append, List.append_assoc]
  · obtain ⟨m, -, rfl⟩ := List.mem_map.mp hk
    rw [key_methodNode]
    refine ⟨.inl rfl, ?_⟩
    simp [String.toList_append, List.append_assoc]

theorem nodup_tails_distinctTails (ms : List MethodFacts) :
    ((distinctTails ms).map (·.tail)).Nodup := by
  induction ms using List.reverseRecOn with
  | nil => exact .nil
  | append_singleton ms m ih =>
    rw [distinctTails, List.foldl_append]
    change (List.map _ (if (distinctTails ms).any (·.tail = m.tail) then distinctTails ms
      else distinctTails ms ++ [m])).Nodup
    split
    · exact ih
    · rename_i hnew
      rw [List.map_append]
      refine ih.append (List.nodup_singleton _) ?_
      simpa using hnew

theorem eq_of_append_colon {x y s r : String} (hx : ':' ∉ x.toList) (hy : ':' ∉ y.toList)
    (h : x ++ ":" ++ s = y ++ ":" ++ r) : x = y := by
  have hlist := congrArg String.toList h
  simp only [String.toList_append, List.append_assoc] at hlist
  exact String.toList_inj.mp (eq_of_append_cons hx hy hlist).1

theorem nodup_memberKeys (hnames : (t.fields.map (·.name)).Nodup)
    (hcolon : ∀ x ∈ t.fields, ':' ∉ x.name.toList) : (memberKeys path t).Nodup := by
  refine List.Nodup.append ?_ ?_ ?_
  · refine (List.Nodup.of_map _ hnames).map_on ?_
    intro x hx y hy he
    rw [key_fieldNode, key_fieldNode] at he
    have htext := (EntityKey.mk.inj he).2
    simp only [String.append_assoc, String.append_right_inj] at htext
    simp only [← String.append_assoc] at htext
    exact List.inj_on_of_nodup_map hnames hx hy
      (eq_of_append_colon (hcolon x hx) (hcolon y hy) htext)
  · refine (List.Nodup.of_map _ (nodup_tails_distinctTails t.methods)).map_on ?_
    intro m hm m' hm' he
    rw [key_methodNode, key_methodNode] at he
    exact List.inj_on_of_nodup_map (nodup_tails_distinctTails t.methods) hm hm'
      ((String.append_right_inj _).mp (EntityKey.mk.inj he).2)
  · intro k hk hk'
    obtain ⟨x, -, rfl⟩ := List.mem_map.mp hk
    obtain ⟨m, -, he⟩ := List.mem_map.mp hk'
    rw [key_fieldNode, key_methodNode] at he
    cases (EntityKey.mk.inj he).1

end Keys

/-! ## No key twice -/

/-- The keys that nodes can have in a project whose files, types and packages have these names. -/
def Known (root : String) (files names packages : List String) (k : EntityKey) : Prop :=
  match k.kind with
  | .project => k.text = root
  | .package => k.text ∈ packages
  | .file => k.text ∈ files
  | .type => k.text ∈ names
  | .method | .field => ∃ q ∈ names, (q ++ "#").toList <+: k.text.toList

theorem Known.mono {root : String} {files files' names names' packages packages' : List String}
    {k : EntityKey} (h : Known root files names packages k) (hf : files ⊆ files')
    (hn : names ⊆ names') (hp : packages ⊆ packages') : Known root files' names' packages' k := by
  obtain ⟨kind, text⟩ := k
  cases kind with
  | project => exact h
  | package => exact hp h
  | file => exact hf h
  | type => exact hn h
  | method | field =>
    obtain ⟨q, hq, hle⟩ := h
    exact ⟨q, hn hq, hle⟩

/-- No two nodes go by one key, and every key comes from a file, type or package that was added. -/
structure Keyed (root : String) (files declared : List String) (a : Assembly) : Prop where
  nodup : a.graph.keys.Nodup
  known : ∀ k ∈ a.graph.keys,
    Known root files (a.symbols.types.map (·.1)) (a.packages.map (·.1)) k
  declared : a.symbols.types.map (·.1) ⊆ declared

section Keyed
variable {root : String} {files files' declared : List String} {a b : Assembly}
  {ks : List EntityKey} {ns ps : List String}

/-- A step keeps keys apart when its keys differ and none of them is known before. -/
theorem Keyed.add (h : Keyed root files declared a) (hadds : Adds a b ks ns ps) (hks : ks.Nodup)
    (hnew : ∀ k ∈ ks, ¬Known root files (a.symbols.types.map (·.1)) (a.packages.map (·.1)) k)
    (hknown : ∀ k ∈ ks, Known root files' (b.symbols.types.map (·.1)) (b.packages.map (·.1)) k)
    (hf : files ⊆ files') (hns : ns ⊆ declared) : Keyed root files' declared b where
  nodup := by
    rw [hadds.keys]
    exact h.nodup.append hks fun k hk hk' => hnew k hk' (h.known k hk)
  known k hk := by
    rw [hadds.keys] at hk
    rcases List.mem_append.mp hk with hk | hk
    · refine (h.known k hk).mono hf ?_ ?_
      · rw [hadds.names]
        exact List.subset_append_left _ _
      · rw [hadds.packages]
        exact List.subset_append_left _ _
    · exact hknown k hk
  declared := by
    rw [hadds.names]
    exact List.append_subset.mpr ⟨h.declared, hns⟩

theorem Keyed.of_adds_nil (h : Keyed root files declared a) (hadds : Adds a b [] [] []) :
    Keyed root files declared b :=
  h.add hadds .nil nofun nofun (List.Subset.refl _) (List.nil_subset _)

theorem Keyed.placeFile (h : Keyed root files declared a) {f : FileFacts}
    (hslash : '\\' ∉ f.path.toList) (hpath : f.path ∉ files) :
    Keyed root (files ++ [f.path]) declared (a.placeFile f) := by
  refine h.add (adds_placeFile a f) (List.nodup_singleton _) ?_ ?_
    (List.subset_append_left _ _) (List.nil_subset _)
  all_goals
    intro k hk
    rw [List.mem_singleton.mp hk, key_fileNode f hslash]
  · exact hpath
  · exact List.mem_append_right _ List.mem_cons_self

theorem Keyed.packageOf (h : Keyed root files declared a) (name : Option String) :
    Keyed root files declared (a.packageOf name).2 := by
  cases name with
  | none => exact h
  | some name =>
    rcases package_cases a name with ⟨id, -, heq⟩ | ⟨hnew, heq⟩
    · rw [Assembly.packageOf, heq]
      exact h
    · rw [Assembly.packageOf, heq]
      have hplaced := adds_placePackage a name
      refine Keyed.of_adds_nil (a := a.placePackage name) ?_ (adds_link _ _)
      refine h.add hplaced (List.nodup_singleton _) ?_ ?_ (List.Subset.refl _) (List.nil_subset _)
      all_goals
        intro k hk
        rw [List.mem_singleton.mp hk]
      · exact hnew
      · change name ∈ (a.placePackage name).packages.map (·.1)
        rw [hplaced.packages]
        exact List.mem_append_right _ List.mem_cons_self

/-- What a type needs so that its nodes go by keys of their own. -/
structure Fresh (declared : List String) (t : TypeFacts) : Prop where
  mem : t.qualifiedName ∈ declared
  nodup : (t.fields.map (·.name)).Nodup
  colonless : ∀ x ∈ t.fields, ':' ∉ x.name.toList

theorem Keyed.addType (h : Keyed root files declared a) (hs : Separate declared) {t : TypeFacts}
    (ht : Fresh declared t) (packageId : Option NodeId) (fileId : NodeId) (f : FileFacts)
    (outer : Option TypeEntry) (hfree : a.symbols.type? t.qualifiedName = none) :
    Keyed root files declared (Assembly.addType fileId packageId f outer a t).2 := by
  have hadds := adds_addType packageId fileId f outer hfree
  have hname : t.qualifiedName ∉ a.symbols.types.map (·.1) := lookup_eq_none_iff_not_mem.mp hfree
  have hthere : t.qualifiedName ∈
      (Assembly.addType fileId packageId f outer a t).2.symbols.types.map (·.1) := by
    rw [hadds.names]
    exact List.mem_append_right _ List.mem_cons_self
  rw [key_typeNode] at hadds
  refine h.add hadds ?_ ?_ ?_ (List.Subset.refl _) ?_
  · refine List.nodup_cons.mpr ⟨?_, nodup_memberKeys ht.nodup ht.colonless⟩
    intro hmem
    rcases (kind_of_mem_memberKeys hmem).1 with hk | hk
    · cases hk
    · cases hk
  · intro k hk hknown
    rcases List.mem_cons.mp hk with rfl | hk
    · exact hname hknown
    · obtain ⟨hkind, hle⟩ := kind_of_mem_memberKeys hk
      have hmember : ∃ q ∈ a.symbols.types.map (·.1), (q ++ "#").toList <+: k.text.toList := by
        rcases hkind with hkind | hkind
        · simpa only [Known, hkind] using hknown
        · simpa only [Known, hkind] using hknown
      obtain ⟨q, hq, hle'⟩ := hmember
      exact hname (hs.eq_of_prefix (h.declared hq) ht.mem hle' hle ▸ hq)
  · intro k hk
    rcases List.mem_cons.mp hk with rfl | hk
    · exact hthere
    · obtain ⟨hkind, hle⟩ := kind_of_mem_memberKeys hk
      rcases hkind with hkind | hkind
      · simpa only [Known, hkind] using ⟨t.qualifiedName, hthere, hle⟩
      · simpa only [Known, hkind] using ⟨t.qualifiedName, hthere, hle⟩
  · exact List.cons_subset.mpr ⟨ht.mem, List.nil_subset _⟩

theorem Keyed.addFile (h : Keyed root files declared a) (hs : Separate declared) {f : FileFacts}
    (hslash : '\\' ∉ f.path.toList) (hpath : f.path ∉ files)
    (ht : ∀ t ∈ f.types, Fresh declared t) :
    Keyed root (files ++ [f.path]) declared (a.addFile f) := by
  have hfold : ∀ (ts : List TypeFacts) (s : List (Option TypeEntry) × Assembly)
      (fileId : NodeId) (packageId : Option NodeId), (∀ t ∈ ts, Fresh declared t) →
      Keyed root (files ++ [f.path]) declared s.2 →
      Keyed root (files ++ [f.path]) declared
        (ts.foldl (addTypeIfNew fileId packageId f) s).2 := by
    intro ts
    induction ts with
    | nil => exact fun _ _ _ _ h => h
    | cons t ts ih =>
      intro s fileId packageId hts hs'
      obtain ⟨placed, b⟩ := s
      refine ih _ fileId packageId (fun u hu => hts u (List.mem_cons_of_mem _ hu)) ?_
      rcases addTypeIfNew_cases fileId packageId f placed b t with heq | ⟨outer, -, hfree, heq⟩
      · rw [heq]
        exact hs'
      · rw [heq]
        exact hs'.addType hs (hts t List.mem_cons_self) packageId fileId f outer hfree
  rw [addFile_eq]
  exact hfold f.types _ _ _ ht ((h.placeFile hslash hpath).packageOf f.package)

theorem Keyed.addFiles {fs : List FileFacts} (h : Keyed root files declared a)
    (hs : Separate declared) (hpaths : (files ++ fs.map (·.path)).Nodup)
    (hslash : ∀ f ∈ fs, '\\' ∉ f.path.toList) (ht : ∀ f ∈ fs, ∀ t ∈ f.types, Fresh declared t) :
    Keyed root (files ++ fs.map (·.path)) declared (fs.foldl Assembly.addFile a) := by
  induction fs generalizing files a with
  | nil =>
    rw [List.map_nil, List.append_nil]
    exact h
  | cons f fs ih =>
    have hnew : f.path ∉ files := by
      intro hmem
      exact (List.nodup_append.mp hpaths).2.2 _ hmem _ List.mem_cons_self rfl
    have hcons : files ++ (f :: fs).map (·.path) = files ++ [f.path] ++ fs.map (·.path) := by
      rw [List.map_cons, List.append_assoc, List.singleton_append]
    rw [hcons] at hpaths ⊢
    exact ih (h.addFile hs (hslash f List.mem_cons_self) hnew (ht f List.mem_cons_self)) hpaths
      (fun g hg => hslash g (List.mem_cons_of_mem _ hg))
      (fun g hg => ht g (List.mem_cons_of_mem _ hg))

end Keyed

theorem keyed_start (projectName : String) (declared : List String) :
    Keyed projectName [] declared (start projectName) where
  nodup := List.nodup_singleton _
  known k hk := by
    rw [List.mem_singleton.mp hk]
    rfl
  declared := List.nil_subset _

theorem keyed_addFiles (projectName : String) {files : List FileFacts} (h : Nameable files) :
    Keyed projectName (files.map (·.path)) (files.flatMap fun f => f.types.map (·.qualifiedName))
      (files.foldl addFile (start projectName)) := by
  refine (keyed_start projectName _).addFiles h.separate h.paths_nodup h.slashes ?_
  intro f hf t ht
  exact ⟨List.mem_flatMap.mpr ⟨f, hf, List.mem_map_of_mem ht⟩, h.fields_nodup f hf t ht,
    h.colonless f hf t ht⟩

end Assembly

end Java

end Lineage
