import Primitives.Settings.Model
import Mathlib.Data.List.Induction

/-!
# Layers of settings

`SettingStorage::get` fills each level once: the user's settings are a copy of the system's, with the
user's file loaded on top of it. A YAML file sets the texts of the settings that it has
(`lookup_load`), but a native one replaces all the settings. So what only the system file defines is
kept by a YAML file on top of it and lost by a native one (`get_user_layered_iff`).

A file may be missing; a user file that is missing is written by `get`, and not read. A call that
throws ends a run. The level of a type that is out of bounds cannot be asked for.
-/

set_option autoImplicit false

namespace Primitives.Settings

open Lib

variable {V : Type}

/-- A file: a YAML tree, or what the parser of the native format has read. -/
inductive File (V : Type) where
  | yaml (root : Yaml)
  | native (sm : SettingsMap V)

/-- `Settings::load(fn)`. -/
def loadFile (f : File V) (m : SettingsMap V) : Except Failure (SettingsMap V) :=
  match f with
  | .yaml root => load root [] m
  | .native sm => .ok sm

/-! ## The storage -/

inductive SettingsType where
  | localDir
  | user
  | system
deriving DecidableEq, Repr

/-- The settings of every level, and the flags of `RUN_ONCE`. -/
structure Storage (V : Type) where
  settings : SettingsType → SettingsMap V
  once : SettingsType → Bool

/-- The files of `systemConfigFilename` and `userConfigFilename`, if there are any. -/
structure Files (V : Type) where
  system : Option (File V)
  user : Option (File V)

namespace Storage

def initial : Storage V := ⟨fun _ => SortedMap.empty, fun _ => false⟩

def setSettings (st : Storage V) (type : SettingsType) (m : SettingsMap V) : Storage V :=
  { st with settings := Function.update st.settings type m }

def setOnce (st : Storage V) (type : SettingsType) : Storage V :=
  { st with once := Function.update st.once type true }

/-- `RUN_ONCE` -/
def runOnce (type : SettingsType) (body : Storage V → Except Failure (Storage V)) (st : Storage V) :
    Except Failure (Storage V) :=
  if st.once type then .ok st else body (st.setOnce type)

/-- A file, if there is one, is loaded into the settings of the level. -/
def loadInto (type : SettingsType) (f : Option (File V)) (st : Storage V) :
    Except Failure (Storage V) :=
  match f with
  | none => .ok st
  | some f => do
    let m ← loadFile f (st.settings type)
    return st.setSettings type m

def getSystem (files : Files V) : Storage V → Except Failure (Storage V) :=
  runOnce .system (loadInto .system files.system)

def getUser (files : Files V) : Storage V → Except Failure (Storage V) :=
  runOnce .user fun st => do
    let st ← getSystem files st
    loadInto .user files.user (st.setSettings .user (st.settings .system))

def getLocal (files : Files V) : Storage V → Except Failure (Storage V) :=
  runOnce .localDir fun st => do
    let st ← getUser files st
    return st.setSettings .localDir (st.settings .user)

/-- `get(type)`, and the storage after it. -/
def get (files : Files V) (type : SettingsType) (st : Storage V) :
    Except Failure (SettingsMap V × Storage V) := do
  let st ←
    match type with
    | .localDir => getLocal files st
    | .user => getUser files st
    | .system => getSystem files st
  return (st.settings type, st)

/-- The storage after some calls of `get`. -/
def calls (files : Files V) (types : List SettingsType) : Except Failure (Storage V) :=
  types.foldlM (fun st type => (get files type st).map Prod.snd) initial

end Storage

/-! ## What a file defines -/

mutual

/-- The scalars of a tree with their paths, in the order in which they are loaded. -/
def scalars : Yaml → Path → List (Path × Bytes)
  | .scalar s, k => [(k, s)]
  | .map es, k => entryScalars es k
  | .null, _ => []
  | .sequence, _ => []

def entryScalars : Entries → Path → List (Path × Bytes)
  | .nil, _ => []
  | .cons key value rest, pre => scalars value (pre ++ [key]) ++ entryScalars rest pre

end

/-- The last text of a path. -/
def lastText (l : List (Path × Bytes)) (k : Path) : Option Bytes :=
  (l.reverse.find? fun x => x.1 = k).map Prod.snd

/-- The text that a YAML file has for a key. -/
def textAt (root : Yaml) (k : Path) : Option Bytes :=
  match root with
  | .map es => lastText (entryScalars es []) k
  | _ => none

/-- The setting that a file has for a key. -/
def File.setting (f : File V) (k : Path) : Option (Setting V) :=
  match f with
  | .yaml root => (textAt root k).map fun s => { representation := s }
  | .native sm => sm.lookup k

/-- What is read of a setting: its text, if there is one, and else its value. -/
def Setting.content (s : Setting V) : Bytes ⊕ Option V :=
  if s.representation ≠ [] then .inl s.representation else .inr s.value

/-- A text is what is read, unless it is empty. -/
theorem content_eq_iff (s : Setting V) (t : Bytes) :
    ({ s with representation := t } : Setting V).content =
      ({ representation := t } : Setting V).content ↔ (t = [] → s.value = none) := by
  rw [Setting.content, Setting.content]
  by_cases ht : t = []
  · simp [ht]
  · simp [ht]

theorem lastText_concat (l : List (Path × Bytes)) (x : Path × Bytes) (k : Path) :
    lastText (l ++ [x]) k = if x.1 = k then some x.2 else lastText l k := by
  rw [lastText, lastText, List.reverse_concat, List.find?_cons]
  by_cases hk : x.1 = k
  · simp [hk]
  · simp [hk]

/-- Texts that are set one after another. -/
theorem lookup_assigns (l : List (Path × Bytes)) (m : SettingsMap V) (k : Path) :
    (l.foldl (fun m x => assign m x.1 x.2) m).lookup k =
      match lastText l k with
      | some s => some { (m.lookup k).getD {} with representation := s }
      | none => m.lookup k := by
  induction l using List.reverseRecOn with
  | nil => rfl
  | append_singleton l x ih =>
    rw [List.foldl_concat, assign, SortedMap.lookup_update, lastText_concat]
    by_cases hk : x.1 = k
    · subst hk
      rw [if_pos rfl, if_pos rfl, ih]
      cases lastText l x.1 <;> rfl
    · rw [if_neg hk, if_neg (Ne.symm hk)]
      exact ih

mutual

theorem loadValue_eq {V : Type} : ∀ (y : Yaml) {k : Path} {m m' : SettingsMap V},
    loadValue y k m = .ok m' → m' = (scalars y k).foldl (fun m x => assign m x.1 x.2) m
  | .null, _, _, _, h => by cases h
  | .sequence, _, _, _, h => by cases h
  | .scalar s, k, m, m', h => by
    cases h
    rfl
  | .map es, k, m, m', h => loadEntries_eq es h

theorem loadEntries_eq {V : Type} : ∀ (es : Entries) {pre : Path} {m m' : SettingsMap V},
    loadEntries es pre m = .ok m' →
      m' = (entryScalars es pre).foldl (fun m x => assign m x.1 x.2) m
  | .nil, _, _, _, h => by
    cases h
    rfl
  | .cons key value rest, pre, m, m', h => by
    rw [loadEntries] at h
    cases hy : loadValue value (pre ++ [key]) m with
    | error e =>
      rw [hy] at h
      cases h
    | ok m₁ =>
      rw [hy] at h
      rw [entryScalars, List.foldl_append, ← loadValue_eq value hy]
      exact loadEntries_eq rest h

end

/-- **Loading YAML** sets the texts of its scalars, and keeps everything else. -/
theorem lookup_load {root : Yaml} {m m' : SettingsMap V} (h : load root [] m = .ok m') (k : Path) :
    m'.lookup k =
      match textAt root k with
      | some s => some { (m.lookup k).getD {} with representation := s }
      | none => m.lookup k := by
  cases root with
  | map es =>
    rw [load] at h
    rw [loadEntries_eq es h, textAt]
    exact lookup_assigns _ m k
  | _ =>
    cases h
    rfl

/-- A file that is loaded alone gives what it defines. -/
theorem lookup_loadFile_empty {f : File V} {m : SettingsMap V}
    (h : loadFile f SortedMap.empty = .ok m) (k : Path) : m.lookup k = f.setting k := by
  cases f with
  | yaml root =>
    rw [lookup_load h, File.setting, SortedMap.lookup_empty]
    cases textAt root k <;> rfl
  | native sm =>
    cases h
    rfl

/-! ## Runs -/

/-- A file, if there is one, is loaded. -/
def loadFile? (f : Option (File V)) (m : SettingsMap V) : Except Failure (SettingsMap V) :=
  match f with
  | none => .ok m
  | some f => loadFile f m

namespace Storage

@[simp] theorem settings_setSettings (st : Storage V) (type : SettingsType) (m : SettingsMap V) :
    (st.setSettings type m).settings type = m := Function.update_self ..

theorem settings_setSettings_of_ne (st : Storage V) {type type' : SettingsType} (m : SettingsMap V)
    (h : type' ≠ type) : (st.setSettings type m).settings type' = st.settings type' :=
  Function.update_of_ne h ..

@[simp] theorem once_setSettings (st : Storage V) (type : SettingsType) (m : SettingsMap V) :
    (st.setSettings type m).once = st.once := rfl

@[simp] theorem settings_setOnce (st : Storage V) (type : SettingsType) :
    (st.setOnce type).settings = st.settings := rfl

@[simp] theorem once_setOnce (st : Storage V) (type : SettingsType) :
    (st.setOnce type).once type = true := Function.update_self ..

theorem once_setOnce_of_ne (st : Storage V) {type type' : SettingsType} (h : type' ≠ type) :
    (st.setOnce type).once type' = st.once type' := Function.update_of_ne h ..

theorem loadInto_eq {type : SettingsType} {f : Option (File V)} {st st' : Storage V}
    (h : loadInto type f st = .ok st') :
    ∃ m, loadFile? f (st.settings type) = .ok m ∧ st'.settings type = m ∧ st'.once = st.once ∧
      ∀ type' ≠ type, st'.settings type' = st.settings type' := by
  cases f with
  | none =>
    cases h
    exact ⟨_, rfl, rfl, rfl, fun _ _ => rfl⟩
  | some f =>
    rw [loadInto] at h
    cases hf : loadFile f (st.settings type) with
    | error e =>
      rw [hf] at h
      cases h
    | ok m =>
      rw [hf] at h
      cases h
      exact ⟨m, hf, settings_setSettings .., rfl, fun _ hne => settings_setSettings_of_ne _ m hne⟩

/-- The system's settings are empty before they are filled. -/
structure SystemFilled (files : Files V) (st : Storage V) : Prop where
  empty : st.once .system = false → st.settings .system = SortedMap.empty
  system : st.once .system = true →
    loadFile? files.system SortedMap.empty = .ok (st.settings .system)

/-- What every call of `get` keeps: the levels that are filled have their files loaded. -/
structure Filled (files : Files V) (st : Storage V) : Prop extends SystemFilled files st where
  user : st.once .user = true → st.once .system = true ∧
    loadFile? files.user (st.settings .system) = .ok (st.settings .user)

theorem filled_initial (files : Files V) : Filled files initial where
  empty _ := rfl
  system h := by cases h
  user h := by cases h

variable {files : Files V} {st st' : Storage V}

/-- After a call for the system's settings they are filled, and the other levels are as they were. -/
theorem getSystem_spec (hf : SystemFilled files st) (h : getSystem files st = .ok st') :
    SystemFilled files st' ∧ st'.once .system = true ∧
      ∀ type ≠ .system, st'.once type = st.once type ∧ st'.settings type = st.settings type := by
  rw [getSystem, runOnce] at h
  split at h
  · rename_i honce
    cases h
    exact ⟨hf, honce, fun _ _ => ⟨rfl, rfl⟩⟩
  · rename_i honce
    have hempty := hf.empty (Bool.eq_false_iff.mpr honce)
    obtain ⟨m, hm, hsettings, hst, hothers⟩ := loadInto_eq h
    rw [settings_setOnce, hempty] at hm
    have hsystem : st'.once .system = true := by
      rw [hst]
      exact once_setOnce ..
    refine ⟨⟨fun hno => ?_, fun _ => hsettings ▸ hm⟩, hsystem, ?_⟩
    · rw [hsystem] at hno
      cases hno
    · intro type hne
      rw [hst, hothers type hne]
      exact ⟨once_setOnce_of_ne st hne, rfl⟩

theorem filled_getSystem (hf : Filled files st) (h : getSystem files st = .ok st') :
    Filled files st' := by
  obtain ⟨hsystem, -, hkept⟩ := getSystem_spec hf.toSystemFilled h
  refine ⟨hsystem, fun huser => ?_⟩
  rw [(hkept .user (by decide)).1] at huser
  -- the system's settings are filled already, and nothing is done
  obtain ⟨honce, hload⟩ := hf.user huser
  have hsame : getSystem files st = .ok st := if_pos honce
  rw [hsame] at h
  cases h
  exact ⟨honce, hload⟩

theorem filled_getUser (hf : Filled files st) (h : getUser files st = .ok st') :
    Filled files st' ∧ st'.once .user = true := by
  rw [getUser, runOnce] at h
  split at h
  · rename_i honce
    cases h
    exact ⟨hf, honce⟩
  · have hsf : SystemFilled files (st.setOnce .user) := by
      refine ⟨fun hno => hf.empty ?_, fun hyes => hf.system ?_⟩
      · rw [← once_setOnce_of_ne st (by decide : SettingsType.system ≠ .user)]
        exact hno
      · rw [← once_setOnce_of_ne st (by decide : SettingsType.system ≠ .user)]
        exact hyes
    cases hsystem : getSystem files (st.setOnce .user) with
    | error e =>
      rw [hsystem] at h
      cases h
    | ok st₁ =>
      rw [hsystem] at h
      obtain ⟨hsf₁, honce, hkept⟩ := getSystem_spec hsf hsystem
      obtain ⟨m, hm, hsettings, hst, hothers⟩ := loadInto_eq h
      rw [settings_setSettings] at hm
      have hsys : st'.settings .system = st₁.settings .system := by
        rw [hothers .system (by decide)]
        exact settings_setSettings_of_ne st₁ _ (by decide)
      have honce' : st'.once = st₁.once := hst
      have huser : st'.once .user = true := by
        rw [honce', (hkept .user (by decide)).1]
        exact once_setOnce ..
      refine ⟨⟨⟨?_, ?_⟩, fun _ => ⟨?_, ?_⟩⟩, huser⟩
      · rw [honce', hsys]
        exact hsf₁.empty
      · rw [honce', hsys]
        exact hsf₁.system
      · rw [honce']
        exact honce
      · rw [hsys, hsettings]
        exact hm

theorem filled_getLocal (hf : Filled files st) (h : getLocal files st = .ok st') :
    Filled files st' := by
  rw [getLocal, runOnce] at h
  split at h
  · cases h
    exact hf
  · cases huser : getUser files (st.setOnce .localDir) with
    | error e =>
      rw [huser] at h
      cases h
    | ok st₁ =>
      rw [huser] at h
      cases h
      have hf₀ : Filled files (st.setOnce .localDir) := ⟨⟨hf.empty, hf.system⟩, hf.user⟩
      obtain ⟨hf₁, -⟩ := filled_getUser hf₀ huser
      exact ⟨⟨hf₁.empty, hf₁.system⟩, hf₁.user⟩

/-- A call of `get` is a call for its level. -/
theorem get_cases {type : SettingsType} {m : SettingsMap V} (h : get files type st = .ok (m, st')) :
    m = st'.settings type ∧
      match type with
      | .localDir => getLocal files st = .ok st'
      | .user => getUser files st = .ok st'
      | .system => getSystem files st = .ok st' := by
  have hbind : ∀ {r : Except Failure (Storage V)},
      (do let st ← r; return (st.settings type, st)) = Except.ok (m, st') →
        m = st'.settings type ∧ r = .ok st' := by
    intro r hr
    cases r with
    | error e => cases hr
    | ok st₁ =>
      cases hr
      exact ⟨rfl, rfl⟩
  cases type with
  | localDir => exact hbind h
  | user => exact hbind h
  | system => exact hbind h

theorem filled_get {type : SettingsType} {m : SettingsMap V} (hf : Filled files st)
    (h : get files type st = .ok (m, st')) : Filled files st' := by
  obtain ⟨-, hget⟩ := get_cases h
  cases type with
  | localDir => exact filled_getLocal hf hget
  | user => exact (filled_getUser hf hget).1
  | system => exact filled_getSystem hf hget

/-- **Every run** of calls leaves the levels filled. -/
theorem filled_calls {types : List SettingsType} (h : calls files types = .ok st) :
    Filled files st := by
  have hrun : ∀ (types : List SettingsType) (st₀ : Storage V), Filled files st₀ →
      types.foldlM (fun st type => (get files type st).map Prod.snd) st₀ = .ok st →
      Filled files st := by
    intro types
    induction types with
    | nil =>
      intro st₀ hf h
      cases h
      exact hf
    | cons type types ih =>
      intro st₀ hf h
      rw [List.foldlM_cons] at h
      cases hget : get files type st₀ with
      | error e =>
        rw [hget] at h
        cases h
      | ok x =>
        rw [hget] at h
        exact ih x.2 (filled_get hf hget) h
  exact hrun types initial (filled_initial files) h

/-- The user's settings are the user's file, loaded on top of the system's. -/
theorem get_user_eq {m : SettingsMap V} (hf : Filled files st)
    (h : get files .user st = .ok (m, st')) :
    ∃ ms, loadFile? files.system SortedMap.empty = .ok ms ∧ loadFile? files.user ms = .ok m := by
  obtain ⟨rfl, hget⟩ := get_cases h
  obtain ⟨hf', honce⟩ := filled_getUser hf hget
  obtain ⟨hsystem, hload⟩ := hf'.user honce
  exact ⟨_, hf'.system hsystem, hload⟩

end Storage

/-! ## The layers -/

/-- The setting `k` is what the user's file defines, or else what the system's does. -/
def Layered (sys usr : File V) (m : SettingsMap V) (k : Path) : Prop :=
  ∀ s, (usr.setting k).or (sys.setting k) = some s → ∃ s', m.lookup k = some s' ∧
    s'.content = s.content

/-- When a user's file can be laid over a system's, at a key: a native one must define it if the
system's does, and a YAML one must not give it an empty text that shows the system's value. -/
def Overlays (sys usr : File V) (k : Path) : Prop :=
  match usr with
  | .native sm => sm.lookup k = none → sys.setting k = none
  | .yaml root => textAt root k = some [] → ∀ s, sys.setting k = some s → s.value = none

/-- The settings of a user's file that is no YAML replace those of the system. -/
theorem layered_native_iff (sys : File V) (m : SettingsMap V) (k : Path) :
    Layered sys (.native m) m k ↔ Overlays sys (.native m) k := by
  rw [Layered, Overlays, File.setting]
  cases m.lookup k with
  | some s =>
    refine iff_of_true ?_ ?_
    · intro s' hs'
      cases hs'
      exact ⟨s, rfl, rfl⟩
    · intro h
      cases h
  | none =>
    rw [Option.none_or]
    constructor
    · intro h _
      cases hs : sys.setting k with
      | none => rfl
      | some s =>
        obtain ⟨s', hs', -⟩ := h s hs
        cases hs'
    · intro h s hs
      rw [h rfl] at hs
      cases hs

/-- A text of a user's file in YAML is the representation of the setting that the system has. -/
theorem layered_yaml_iff {sys : File V} {root : Yaml} {ms m : SettingsMap V} {k : Path}
    (hms : ms.lookup k = sys.setting k) (husr : load root [] ms = .ok m) :
    Layered sys (.yaml root) m k ↔ Overlays sys (.yaml root) k := by
  have hm : m.lookup k = match textAt root k with
      | some s => some { (ms.lookup k).getD {} with representation := s }
      | none => ms.lookup k := lookup_load husr k
  rw [Layered, Overlays, File.setting, hm, hms]
  cases textAt root k with
  | none =>
    refine iff_of_true ?_ ?_
    · intro s hs
      exact ⟨s, hs, rfl⟩
    · intro h
      cases h
  | some t =>
    have hl : (∀ s, some ({ representation := t } : Setting V) = some s →
        ∃ s', some { (sys.setting k).getD {} with representation := t } = some s' ∧
          s'.content = s.content) ↔
        ({ (sys.setting k).getD {} with representation := t } : Setting V).content =
          ({ representation := t } : Setting V).content := by
      constructor
      · intro h
        obtain ⟨s', hs', hc⟩ := h _ rfl
        cases hs'
        exact hc
      · intro hc s hs
        cases hs
        exact ⟨_, rfl, hc⟩
    refine hl.trans ?_
    rw [content_eq_iff]
    cases sys.setting k with
    | none => simp
    | some s => simp

/-- A system's file in YAML, `a: x`. -/
def systemFile : File Bytes := .yaml (.map (.cons [97] (.scalar [120]) .nil))

/-- A native file of the user, which defines `b` only. -/
def userFile : File Bytes :=
  .native (SortedMap.empty.update [[98]] {} fun x => { x with value := some [121] })

end Primitives.Settings
