import Lineage.Config.Overrides
import Lineage.Proofs.Keyed
import Lineage.Proofs.Text
/-! # Overrides by variables

Each variable sets the one field that it names, so the last one to name a field decides, and only
the order of variables of one name matters. Main statements: `stands_iff`, `outcome_overrideAll`,
`overridesAll_overrideAll`.
-/
namespace Lineage.Config

open Text

/-! ## Texts of values -/

/-- The text is the word with blanks around it. -/
def Surrounds (word : List Char) (text : String) : Prop :=
  ∃ xs ys, (∀ c ∈ xs, isBlank c = true) ∧ (∀ c ∈ ys, isBlank c = true) ∧
    text.toList = xs ++ word ++ ys

/-- The word is a name in letters of any case, perhaps with underscores for hyphens. -/
def Spells (word : List Char) (name : String) : Prop :=
  List.Forall₂ (fun c d => asciiLower c = d ∨ c = '_' ∧ d = '-') word name.toList

/-- The word is a number in decimal digits, perhaps with a plus sign. -/
def IsNumeral (word : List Char) (n : Nat) : Prop :=
  ∃ ds, ds ≠ [] ∧ (∀ c ∈ ds, isDigit c = true) ∧ digitsValue ds = n ∧ (word = ds ∨ word = '+' :: ds)

theorem surrounds_iff {word : List Char} (hword : Trimmed word) {text : String} :
    Surrounds word text ↔ (trim text).toList = word := by
  rw [toList_trim]
  constructor
  · rintro ⟨xs, ys, hxs, hys, he⟩
    rw [he, trimChars_surrounded hxs hys, hword.trimChars_eq]
  · rintro rfl
    exact exists_surrounding text.toList

section Choice
variable {α : Type}

def IsChoice (name : α → String) (text : String) (a : α) : Prop :=
  ∃ word, Surrounds word text ∧ Spells word (name a)

/-- Names by which choices are told apart. -/
structure Telling (all : List α) (name : α → String) : Prop where
  mem : ∀ a, a ∈ all
  nodup : (all.map name).Nodup
  trimmed : ∀ a ∈ all, Trimmed (name a).toList
  hyphened : ∀ a ∈ all, '_' ∉ (name a).toList

theorem not_isBlank_of_spelled {c d : Char} (h : asciiLower c = d ∨ c = '_' ∧ d = '-')
    (hd : isBlank d = false) : isBlank c = false := by
  rcases h with rfl | ⟨rfl, -⟩
  · rwa [isBlank_asciiLower] at hd
  · decide

theorem head_of_spelled {word name : List Char}
    (h : List.Forall₂ (fun c d => asciiLower c = d ∨ c = '_' ∧ d = '-') word name)
    (hname : ∀ d ∈ name.head?, isBlank d = false) : ∀ c ∈ word.head?, isBlank c = false := by
  cases h with
  | nil => exact nofun
  | cons hcd _ =>
    rintro _ ⟨⟩
    exact not_isBlank_of_spelled hcd (hname _ rfl)

theorem Spells.trimmed {word : List Char} {name : String} (h : Spells word name)
    (hname : Trimmed name.toList) : Trimmed word := by
  have hreverse := List.rel_reverse h
  constructor
  · exact head_of_spelled h hname.1
  · rw [← List.head?_reverse]
    apply head_of_spelled hreverse
    rw [List.head?_reverse]
    exact hname.2

theorem asciiLower_eq_underscore_iff {c : Char} : asciiLower c = '_' ↔ c = '_' := by
  constructor
  · intro h
    have hn := congrArg Char.toNat h
    rw [toNat_asciiLower] at hn
    apply Char.toNat_inj.mp
    simp only [Char.reduceToNat] at hn ⊢
    split at hn <;> omega
  · rintro rfl
    decide

/-- The character that a choice's name has for one of a text. -/
def plain (c : Char) : Char := if asciiLower c = '_' then '-' else asciiLower c

theorem plain_eq_iff {c d : Char} (hd : d ≠ '_') :
    plain c = d ↔ asciiLower c = d ∨ c = '_' ∧ d = '-' := by
  unfold plain
  by_cases hc : c = '_'
  · rw [if_pos (asciiLower_eq_underscore_iff.mpr hc), asciiLower_eq_underscore_iff.mpr hc]
    simp [hc, hd.symm, eq_comm]
  · rw [if_neg (mt asciiLower_eq_underscore_iff.mp hc)]
    simp [hc]

theorem spells_iff {word : List Char} {name : String} (hname : '_' ∉ name.toList) :
    Spells word name ↔ word.map plain = name.toList := by
  unfold Spells
  generalize name.toList = ds at hname
  induction word generalizing ds with
  | nil => cases ds <;> simp
  | cons c word ih =>
    cases ds with
    | nil => simp
    | cons d ds =>
      rw [List.mem_cons, not_or] at hname
      rw [List.forall₂_cons, List.map_cons, List.cons_eq_cons, ih ds hname.2,
        plain_eq_iff (Ne.symm hname.1)]

theorem choose_eq_ok_iff {all : List α} {name : α → String} (h : Telling all name)
    {field text : String} {a : α} :
    choose all name field text = .ok a ↔ IsChoice name text a := by
  have hkey : (((trim text).map asciiLower).map fun c => if c = '_' then '-' else c).toList =
      (trim text).toList.map plain := by
    rw [String.toList_map, String.toList_map, List.map_map]
    rfl
  have hfind : choose all name field text = .ok a ↔
      name a = ((trim text).map asciiLower).map fun c => if c = '_' then '-' else c := by
    unfold choose
    dsimp only
    split
    · rename_i b hb
      rw [find?_key_eq_some_iff h.nodup] at hb
      constructor
      · rintro ⟨⟩
        exact hb.2
      · intro ha
        rw [List.inj_on_of_nodup_map h.nodup hb.1 (h.mem a) (hb.2.trans ha.symm)]
    · rename_i hnone
      rw [find?_key_eq_none_iff] at hnone
      refine iff_of_false nofun fun ha => hnone ?_
      rw [← ha]
      exact List.mem_map_of_mem (h.mem a)
  rw [hfind, ← String.toList_inj, hkey, eq_comm, ← spells_iff (h.hyphened a (h.mem a))]
  constructor
  · intro hs
    exact ⟨_, (surrounds_iff (hs.trimmed (h.trimmed a (h.mem a)))).mpr rfl, hs⟩
  · rintro ⟨word, hw, hs⟩
    rwa [(surrounds_iff (hs.trimmed (h.trimmed a (h.mem a)))).mp hw]

end Choice

def IsCount (bound : Nat) (text : String) (n : Nat) : Prop :=
  n ≤ bound ∧ ∃ word, Surrounds word text ∧ IsNumeral word n

theorem not_isBlank_of_isDigit {c : Char} (h : isDigit c = true) : isBlank c = false := by
  have hdigit : '0' ≤ c ∧ c ≤ '9' := by simpa [isDigit] using h
  have hn : 48 ≤ c.toNat ∧ c.toNat ≤ 57 := hdigit
  rw [← Bool.not_eq_true]
  simp only [isBlank, Bool.or_eq_true, Bool.and_eq_true, decide_eq_true_eq, beq_iff_eq]
  omega

theorem IsNumeral.trimmed {word : List Char} {n : Nat} (h : IsNumeral word n) : Trimmed word := by
  obtain ⟨ds, -, hds, -, hword⟩ := h
  have hsolid : ∀ c ∈ word, isBlank c = false := by
    intro c hc
    rcases hword with rfl | rfl
    · exact not_isBlank_of_isDigit (hds c hc)
    · rcases List.mem_cons.mp hc with rfl | hc
      · decide
      · exact not_isBlank_of_isDigit (hds c hc)
  exact ⟨fun c hc => hsolid c (List.mem_of_mem_head? hc),
    fun c hc => hsolid c (List.mem_of_mem_getLast? hc)⟩

/-- The digits of a word, after the sign that it may have. -/
def unsigned (word : List Char) : List Char := if word.head? = some '+' then word.drop 1 else word

theorem isNumeral_iff {word : List Char} {n : Nat} : IsNumeral word n ↔
    unsigned word ≠ [] ∧ (∀ c ∈ unsigned word, isDigit c = true) ∧
      digitsValue (unsigned word) = n := by
  constructor
  · rintro ⟨ds, hne, hds, hn, hword⟩
    have hunsigned : unsigned word = ds := by
      rcases hword with hword | hword
      · have hplus : ds.head? ≠ some '+' := fun h =>
          absurd (hds _ (List.mem_of_mem_head? h)) (by decide)
        rw [hword, unsigned, if_neg hplus]
      · rw [hword]
        rfl
    rw [hunsigned]
    exact ⟨hne, hds, hn⟩
  · rintro ⟨hne, hds, hn⟩
    refine ⟨unsigned word, hne, hds, hn, ?_⟩
    unfold unsigned
    split
    · rename_i h
      obtain ⟨rest, rfl⟩ := List.head?_eq_some_iff.mp h
      exact .inr rfl
    · exact .inl rfl

theorem number_eq_ok_iff {bound : Nat} {field text : String} {n : Nat} :
    number bound field text = .ok n ↔ IsCount bound text n := by
  have hnumber : number bound field text = .ok n ↔
      n ≤ bound ∧ IsNumeral (trim text).toList n := by
    rw [isNumeral_iff, number, ← unsigned]
    split
    · rename_i h
      simp only [Bool.and_eq_true, Bool.not_eq_true', List.isEmpty_eq_false_iff, List.all_eq_true,
        decide_eq_true_eq] at h
      constructor
      · intro hn
        exact Except.ok.inj hn ▸ ⟨h.2, h.1.1, h.1.2, rfl⟩
      · rintro ⟨-, -, -, rfl⟩
        rfl
    · rename_i h
      refine iff_of_false nofun fun ⟨hle, hne, hds, hn⟩ => h ?_
      simp only [Bool.and_eq_true, Bool.not_eq_true', List.isEmpty_eq_false_iff, List.all_eq_true,
        decide_eq_true_eq]
      exact ⟨⟨hne, hds⟩, hn ▸ hle⟩
  rw [hnumber]
  refine and_congr_right fun _ => ⟨fun h => ⟨_, (surrounds_iff h.trimmed).mpr rfl, h⟩, ?_⟩
  rintro ⟨word, hw, h⟩
  rwa [(surrounds_iff h.trimmed).mp hw]

/-! ## Fields -/

def Setting.Value : Setting → Type
  | .mode => Mode
  | .detector => DetectorKind
  | .strategy => Strategy
  | .historyWindow | .maxDepth | .maxDays => Nat
  | .projectName | .reportDir | .logDir => Option String
  | .projectPath | .commit | .miner | .exportDir | .logLevel => String

def Setting.path : Setting → String
  | .mode => "mode"
  | .projectPath => "project.path"
  | .projectName => "project.name"
  | .commit => "evolution.commit"
  | .detector => "evolution.detector"
  | .miner => "evolution.refactoring_miner"
  | .reportDir => "evolution.report_dir"
  | .strategy => "timeline.strategy"
  | .historyWindow => "timeline.history_window"
  | .maxDepth => "timeline.max_depth"
  | .maxDays => "timeline.max_days"
  | .exportDir => "export.base_dir"
  | .logLevel => "log.level"
  | .logDir => "log.directory"

/-- The text stands for a value of the field. -/
def Setting.Stands : (s : Setting) → String → s.Value → Prop
  | .mode, text, v => IsChoice Mode.name text v
  | .detector, text, v => IsChoice DetectorKind.name text v
  | .strategy, text, v => IsChoice Strategy.name text v
  | .historyWindow, text, n | .maxDepth, text, n => IsCount maxCount text n
  | .maxDays, text, n => IsCount maxDayCount text n
  | .projectName, text, v | .reportDir, text, v | .logDir, text, v => v = some text
  | .projectPath, text, v | .commit, text, v | .miner, text, v | .exportDir, text, v
  | .logLevel, text, v => v = text

def Setting.read : (s : Setting) → String → Except ConfigError s.Value
  | .mode, text => chooseMode text
  | .detector, text => chooseDetector text
  | .strategy, text => chooseStrategy text
  | .historyWindow, text => number maxCount "timeline.history_window" text
  | .maxDepth, text => number maxCount "timeline.max_depth" text
  | .maxDays, text => number maxDayCount "timeline.max_days" text
  | .projectName, text | .reportDir, text | .logDir, text => .ok (some text)
  | .projectPath, text | .commit, text | .miner, text | .exportDir, text | .logLevel, text =>
    .ok text

def get (c : Config) : (s : Setting) → s.Value
  | .mode => c.mode
  | .projectPath => c.project.path
  | .projectName => c.project.name
  | .commit => c.evolution.commit
  | .detector => c.evolution.detector
  | .miner => c.evolution.miner
  | .reportDir => c.evolution.reportDir
  | .strategy => c.timeline.strategy
  | .historyWindow => c.timeline.historyWindow
  | .maxDepth => c.timeline.maxDepth
  | .maxDays => c.timeline.maxDays
  | .exportDir => c.export.baseDir
  | .logLevel => c.log.level
  | .logDir => c.log.directory

def put (c : Config) : (s : Setting) → s.Value → Config
  | .mode, v => { c with mode := v }
  | .projectPath, v => { c with project.path := v }
  | .projectName, v => { c with project.name := v }
  | .commit, v => { c with evolution.commit := v }
  | .detector, v => { c with evolution.detector := v }
  | .miner, v => { c with evolution.miner := v }
  | .reportDir, v => { c with evolution.reportDir := v }
  | .strategy, v => { c with timeline.strategy := v }
  | .historyWindow, v => { c with timeline.historyWindow := v }
  | .maxDepth, v => { c with timeline.maxDepth := v }
  | .maxDays, v => { c with timeline.maxDays := v }
  | .exportDir, v => { c with «export».baseDir := v }
  | .logLevel, v => { c with log.level := v }
  | .logDir, v => { c with log.directory := v }

/-- What no variable sets. -/
def remainder (c : Config) : List String × Bool × Nat :=
  (c.staleArtifacts, c.export.pretty, c.log.queueCapacity)

section Fields
variable {c c' : Config} {s t : Setting}

theorem set_eq (c : Config) (s : Setting) (text : String) :
    c.set s text = (s.read text).map (c.put s) := by
  cases s <;> rfl

@[simp] theorem get_put_self (v : s.Value) : (c.put s v).get s = v := by
  cases s <;> rfl

theorem get_put_of_ne (h : t ≠ s) (v : s.Value) : (c.put s v).get t = c.get t := by
  cases s <;> cases t <;> first | rfl | exact absurd rfl h

@[simp] theorem remainder_put (v : s.Value) : (c.put s v).remainder = c.remainder := by
  cases s <;> rfl

theorem eq_of_get (h : ∀ s, c.get s = c'.get s) (hr : c.remainder = c'.remainder) : c = c' := by
  obtain ⟨m, ⟨p, pn⟩, ⟨ec, ed, em, er⟩, ⟨ts, th, td, ty⟩, a, ⟨xb, xp⟩, ⟨ll, ld, lq⟩⟩ := c
  obtain ⟨m', ⟨p', pn'⟩, ⟨ec', ed', em', er'⟩, ⟨ts', th', td', ty'⟩, a', ⟨xb', xp'⟩,
    ⟨ll', ld', lq'⟩⟩ := c'
  obtain ⟨rfl, rfl, rfl⟩ : a = a' ∧ xp = xp' ∧ lq = lq' := by simpa [remainder] using hr
  obtain rfl : m = m' := h .mode
  obtain rfl : p = p' := h .projectPath
  obtain rfl : pn = pn' := h .projectName
  obtain rfl : ec = ec' := h .commit
  obtain rfl : ed = ed' := h .detector
  obtain rfl : em = em' := h .miner
  obtain rfl : er = er' := h .reportDir
  obtain rfl : ts = ts' := h .strategy
  obtain rfl : th = th' := h .historyWindow
  obtain rfl : td = td' := h .maxDepth
  obtain rfl : ty = ty' := h .maxDays
  obtain rfl : xb = xb' := h .exportDir
  obtain rfl : ll = ll' := h .logLevel
  obtain rfl : ld = ld' := h .logDir
  rfl

theorem mem_all (s : Setting) : s ∈ Setting.all := by cases s <;> decide

theorem nodup_variableNames : (Setting.all.map Setting.variableName).Nodup := by decide

theorem ofVariable?_eq_some_iff {name : String} :
    Setting.ofVariable? name = some s ↔ s.variableName = name :=
  (find?_key_eq_some_iff nodup_variableNames).trans (and_iff_right (mem_all s))

theorem ofVariable?_eq_none_iff {name : String} :
    Setting.ofVariable? name = none ↔ ∀ s : Setting, s.variableName ≠ name := by
  simp [Setting.ofVariable?, mem_all]

theorem trimmed_of_letters {s : String} (h : s.toList.all (!isBlank ·) = true) :
    Trimmed s.toList := by
  have hsolid : ∀ c ∈ s.toList, isBlank c = false := by simpa using h
  exact ⟨fun c hc => hsolid c (List.mem_of_mem_head? hc),
    fun c hc => hsolid c (List.mem_of_mem_getLast? hc)⟩

theorem telling_mode : Telling Mode.all Mode.name where
  mem a := by cases a <;> decide
  nodup := by decide
  trimmed a _ := trimmed_of_letters (by cases a <;> decide)
  hyphened := by decide

theorem telling_detector : Telling DetectorKind.all DetectorKind.name where
  mem a := by cases a <;> decide
  nodup := by decide
  trimmed a _ := trimmed_of_letters (by cases a <;> decide)
  hyphened := by decide

theorem telling_strategy : Telling Strategy.all Strategy.name where
  mem a := by cases a <;> decide
  nodup := by decide
  trimmed a _ := trimmed_of_letters (by cases a <;> decide)
  hyphened := by decide

theorem stands_iff {text : String} {v : s.Value} : s.Stands text v ↔ s.read text = .ok v := by
  cases s with
  | mode => exact (choose_eq_ok_iff telling_mode).symm
  | detector => exact (choose_eq_ok_iff telling_detector).symm
  | strategy => exact (choose_eq_ok_iff telling_strategy).symm
  | historyWindow | maxDepth | maxDays =>
    rw [Setting.read]
    exact number_eq_ok_iff.symm
  | projectPath | projectName | commit | miner | reportDir | exportDir | logLevel | logDir =>
    exact ⟨fun h => congrArg Except.ok (Eq.symm h), fun h => (Except.ok.inj h).symm⟩

theorem choose_eq_error {α : Type} {all : List α} {name : α → String} {field text : String}
    {e : ConfigError} (h : choose all name field text = .error e) :
    e = .unknownValue field text := by
  unfold choose at h
  dsimp only at h
  split at h
  · cases h
  · exact (Except.error.inj h).symm

theorem number_eq_error {bound : Nat} {field text : String} {e : ConfigError}
    (h : number bound field text = .error e) : e = .unknownValue field text := by
  rw [number, ← unsigned] at h
  split_ifs at h
  exact (Except.error.inj h).symm

theorem read_eq_error {text : String} {e : ConfigError} (h : s.read text = .error e) :
    e = .unknownValue s.path text := by
  cases s with
  | mode | detector | strategy => exact choose_eq_error h
  | historyWindow | maxDepth | maxDays =>
    rw [Setting.read] at h
    exact number_eq_error h
  | projectPath | projectName | commit | miner | reportDir | exportDir | logLevel | logDir =>
    cases h

end Fields

/-! ## One variable -/

abbrev Variable := String × String

/-- Whatever field the variable names, its text stands for a value of that field. -/
def Sound (v : Variable) : Prop := ∀ s : Setting, s.variableName = v.1 → ∃ x, s.Stands v.2 x

/-- What one variable does. -/
inductive Overrides (c : Config) (v : Variable) : Except ConfigError Config → Prop
  | sets {s : Setting} {x : s.Value} (hs : s.variableName = v.1) (hx : s.Stands v.2 x) :
    Overrides c v (.ok (c.put s x))
  | ignores (h : ∀ s : Setting, s.variableName ≠ v.1) : Overrides c v (.ok c)
  | refuses {s : Setting} (hs : s.variableName = v.1) (hx : ∀ x, ¬s.Stands v.2 x) :
    Overrides c v (.error (.unknownValue s.path v.2))

theorem overrides_override (c : Config) (v : Variable) : Overrides c v (c.override v) := by
  unfold override
  cases h : Setting.ofVariable? v.1 with
  | none => exact .ignores (ofVariable?_eq_none_iff.mp h)
  | some s =>
    have hs := ofVariable?_eq_some_iff.mp h
    dsimp only
    rw [set_eq]
    cases hread : s.read v.2 with
    | ok x => exact .sets hs (stands_iff.mpr hread)
    | error e =>
      rw [read_eq_error hread]
      refine .refuses hs fun x hx => ?_
      rw [stands_iff.mp hx] at hread
      cases hread

theorem variableName_injective {s t : Setting} (h : s.variableName = t.variableName) : s = t :=
  List.inj_on_of_nodup_map nodup_variableNames (mem_all s) (mem_all t) h

/-! ## All variables -/

/-- The text of the last variable of a name. -/
def lastText? (vs : List Variable) (name : String) : Option String := vs.reverse.lookup name

theorem lastText?_cons (v : Variable) (vs : List Variable) (name : String) :
    lastText? (v :: vs) name = (lastText? vs name).or (if name = v.1 then some v.2 else none) := by
  obtain ⟨i, x⟩ := v
  simp only [lastText?, List.reverse_cons, List.lookup_append, lookup_cons_eq_ite, List.lookup_nil]

theorem lastText?_eq_some_iff {vs : List Variable} (h : (vs.map Prod.fst).Nodup)
    {name text : String} : lastText? vs name = some text ↔ (name, text) ∈ vs := by
  have hreverse : (vs.reverse.map Prod.fst).Nodup := by
    rwa [List.map_reverse, List.nodup_reverse]
  rw [← List.mem_reverse]
  exact ⟨mem_of_lookup_eq_some, lookup_of_mem hreverse⟩

theorem lastText?_perm {vs ws : List Variable} (hnodup : (vs.map Prod.fst).Nodup) (h : vs.Perm ws)
    (name : String) : lastText? vs name = lastText? ws name := by
  apply Option.ext
  intro text
  rw [lastText?_eq_some_iff hnodup, lastText?_eq_some_iff ((h.map _).nodup hnodup), h.mem_iff]

structure Applied (c : Config) (vs : List Variable) (c' : Config) : Prop where
  named : ∀ (s : Setting) text, lastText? vs s.variableName = some text → s.Stands text (c'.get s)
  unnamed : ∀ s : Setting, lastText? vs s.variableName = none → c'.get s = c.get s
  remainder : c'.remainder = c.remainder

theorem applied_nil (c : Config) : Applied c [] c := ⟨nofun, fun _ _ => rfl, rfl⟩

theorem get_of_overrides {c c' : Config} {v : Variable} (hv : Overrides c v (.ok c'))
    (t : Setting) :
    if t.variableName = v.1 then t.Stands v.2 (c'.get t) else c'.get t = c.get t := by
  cases hv with
  | ignores h =>
    rw [if_neg (h t)]
  | @sets s x hs hx =>
    split
    · rename_i ht
      obtain rfl : t = s := variableName_injective (ht.trans hs.symm)
      rwa [get_put_self]
    · rename_i ht
      apply get_put_of_ne
      rintro rfl
      exact ht hs

theorem remainder_of_overrides {c c' : Config} {v : Variable} (hv : Overrides c v (.ok c')) :
    c'.remainder = c.remainder := by
  cases hv with
  | ignores h => rfl
  | sets hs hx => exact remainder_put _

theorem Applied.cons {c c₁ c' : Config} {v : Variable} {vs : List Variable}
    (hv : Overrides c v (.ok c₁)) (h : Applied c₁ vs c') : Applied c (v :: vs) c' where
  named s text hs := by
    rw [lastText?_cons, Option.or_eq_some_iff] at hs
    rcases hs with hs | ⟨hnone, hs⟩
    · exact h.named s text hs
    · have hname : s.variableName = v.1 := by
        by_contra hne
        rw [if_neg hne] at hs
        cases hs
      have hget := get_of_overrides hv s
      rw [if_pos hname] at hs hget
      obtain rfl : v.2 = text := Option.some.inj hs
      rwa [h.unnamed s hnone]
  unnamed s hs := by
    rw [lastText?_cons, Option.or_eq_none_iff] at hs
    have hname : s.variableName ≠ v.1 := by
      intro he
      rw [if_pos he] at hs
      cases hs.2
    have hget := get_of_overrides hv s
    rw [if_neg hname] at hget
    rw [h.unnamed s hs.1, hget]
  remainder := by rw [h.remainder, remainder_of_overrides hv]

theorem Setting.Stands.eq {s : Setting} {text : String} {x y : s.Value} (hx : s.Stands text x)
    (hy : s.Stands text y) : x = y := by
  rw [stands_iff] at hx hy
  exact Except.ok.inj (hx.symm.trans hy)

theorem Applied.eq {c c₁ c₂ : Config} {vs : List Variable} (h₁ : Applied c vs c₁)
    (h₂ : Applied c vs c₂) : c₁ = c₂ := by
  apply eq_of_get
  · intro s
    cases htext : lastText? vs s.variableName with
    | some text => exact (h₁.named s text htext).eq (h₂.named s text htext)
    | none => rw [h₁.unnamed s htext, h₂.unnamed s htext]
  · rw [h₁.remainder, h₂.remainder]

theorem Applied.congr {c c' : Config} {vs ws : List Variable} (h : Applied c vs c')
    (hlast : ∀ name, lastText? vs name = lastText? ws name) : Applied c ws c' where
  named s text hs := h.named s text ((hlast _).trans hs)
  unnamed s hs := h.unnamed s ((hlast _).trans hs)
  remainder := h.remainder

/-- What all variables do: none is refused, or a first one is and those before it stay applied. -/
inductive Outcome (c : Config) : List Variable → Option ConfigError × Config → Prop
  | succeeds {vs : List Variable} {c' : Config} (sound : ∀ v ∈ vs, Sound v) (h : Applied c vs c') :
    Outcome c vs (none, c')
  | stops {before after : List Variable} {v : Variable} {s : Setting} {c' : Config}
    (sound : ∀ v ∈ before, Sound v) (h : Applied c before c') (hs : s.variableName = v.1)
    (hx : ∀ x, ¬s.Stands v.2 x) :
    Outcome c (before ++ v :: after) (some (.unknownValue s.path v.2), c')

theorem sound_of_overrides {c c' : Config} {v : Variable} (h : Overrides c v (.ok c')) :
    Sound v := by
  intro t ht
  have hget := get_of_overrides h t
  rw [if_pos ht] at hget
  exact ⟨_, hget⟩

theorem Outcome.cons {c c₁ : Config} {v : Variable} {vs : List Variable}
    {r : Option ConfigError × Config} (hv : Overrides c v (.ok c₁)) (h : Outcome c₁ vs r) :
    Outcome c (v :: vs) r := by
  cases h with
  | succeeds sound h =>
    exact .succeeds (List.forall_mem_cons.mpr ⟨sound_of_overrides hv, sound⟩) (.cons hv h)
  | stops sound h hs hx =>
    rw [← List.cons_append]
    exact .stops (List.forall_mem_cons.mpr ⟨sound_of_overrides hv, sound⟩) (.cons hv h) hs hx

theorem outcome_overrideAll (c : Config) (vs : List Variable) :
    Outcome c vs (c.overrideAll vs) := by
  induction vs generalizing c with
  | nil => exact .succeeds (List.forall_mem_nil _) (applied_nil c)
  | cons v vs ih =>
    have hv := overrides_override c v
    rw [overrideAll]
    cases hr : c.override v with
    | ok c₁ =>
      rw [hr] at hv
      exact (ih c₁).cons hv
    | error e =>
      rw [hr] at hv
      cases hv with
      | @refuses s hs hx => exact .stops (List.forall_mem_nil _) (applied_nil c) hs hx

theorem not_sound {v : Variable} {s : Setting} (hs : s.variableName = v.1)
    (hx : ∀ x, ¬s.Stands v.2 x) : ¬Sound v := by
  intro h
  obtain ⟨x, h⟩ := h s hs
  exact hx x h

theorem overrideAll_eq_none_iff {c : Config} {vs : List Variable} :
    (c.overrideAll vs).1 = none ↔ ∀ v ∈ vs, Sound v := by
  have h := outcome_overrideAll c vs
  generalize c.overrideAll vs = r at h
  cases h with
  | succeeds sound h => exact iff_of_true rfl sound
  | stops sound h hs hx =>
    refine iff_of_false nofun fun hall => not_sound hs hx ?_
    exact hall _ (List.mem_append_right _ List.mem_cons_self)

theorem applied_overrideAll {c : Config} {vs : List Variable} (h : ∀ v ∈ vs, Sound v) :
    Applied c vs (c.overrideAll vs).2 := by
  have hnone := (@overrideAll_eq_none_iff c vs).mpr h
  have ho := outcome_overrideAll c vs
  generalize c.overrideAll vs = r at ho hnone
  cases ho with
  | succeeds _ h => exact h
  | stops => cases hnone

theorem overrideAll_eq {c c' : Config} {vs : List Variable} (h : ∀ v ∈ vs, Sound v)
    (hc : Applied c vs c') : c.overrideAll vs = (none, c') := by
  apply Prod.ext
  · exact overrideAll_eq_none_iff.mpr h
  · exact (applied_overrideAll h).eq hc

/-- How a list of variables overrides a configuration. -/
structure OverridesAll (c : Config) (vs : List Variable) : Prop where
  /-- Nothing is refused when each variable of a field stands for a value. -/
  succeeds : (c.overrideAll vs).1 = none ↔ ∀ v ∈ vs, Sound v
  /-- The last variable of a field decides, and a field without one stays. -/
  sets : (c.overrideAll vs).1 = none → Applied c vs (c.overrideAll vs).2
  /-- Variables of distinct names may stand in any order. -/
  permuted : (c.overrideAll vs).1 = none → (vs.map Prod.fst).Nodup →
    ∀ ws, vs.Perm ws → c.overrideAll ws = c.overrideAll vs
  /-- The first refused variable makes the error, and those before it stay applied. -/
  stops : ∀ e, (c.overrideAll vs).1 = some e →
    ∃ before v after, vs = before ++ v :: after ∧ (∀ u ∈ before, Sound u) ∧ ¬Sound v ∧
      (∃ s : Setting, s.variableName = v.1 ∧ e = .unknownValue s.path v.2) ∧
      c.overrideAll before = (none, (c.overrideAll vs).2)

theorem overridesAll_overrideAll (c : Config) (vs : List Variable) : OverridesAll c vs where
  succeeds := overrideAll_eq_none_iff
  sets h := applied_overrideAll (overrideAll_eq_none_iff.mp h)
  permuted h hnodup ws hperm := by
    have hsound := overrideAll_eq_none_iff.mp h
    have happlied : Applied c ws (c.overrideAll vs).2 :=
      (applied_overrideAll hsound).congr (lastText?_perm hnodup hperm)
    rw [overrideAll_eq (fun v hv => hsound v (hperm.mem_iff.mpr hv)) happlied, ← h]
  stops e he := by
    have h := outcome_overrideAll c vs
    generalize c.overrideAll vs = r at h he
    cases h with
    | succeeds => cases he
    | @stops before after v s c' sound h hs hx =>
      obtain rfl := Option.some.inj he
      exact ⟨before, v, after, rfl, sound, not_sound hs hx, ⟨s, hs, rfl⟩, overrideAll_eq sound h⟩

end Lineage.Config
