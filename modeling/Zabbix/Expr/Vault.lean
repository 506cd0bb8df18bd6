import Mathlib.Data.List.TakeWhile
import Mathlib.Tactic.Common

/-!
# Vault locations of user macros

`user_macro.c`, and `zbx_string_split` of `str.c`. A path is in `kvs_paths` as long as it has keys,
so the keys are listed with their paths.
-/

namespace Zabbix.Vault

open List

structure Macro where
  macroid : ℕ
  hostid : ℕ
  deriving DecidableEq

/-- A path and a key of it, which stand for the address of its entry. -/
abbrev Location := List Char × List Char

structure Kv where
  location : Location
  update : Bool
  -- pairs of `hostid` and `macroid`
  macros : List (ℕ × ℕ)
  deriving DecidableEq

structure Config where
  kvs : List Kv
  gmacroKv : ℕ → Option Location
  hmacroKv : ℕ → Option Location

def Config.macroKv (config : Config) (m : Macro) : Option Location :=
  if m.hostid = 0 then config.gmacroKv m.macroid else config.hmacroKv m.macroid

def Config.setMacroKv (config : Config) (m : Macro) (kv : Location) : Config :=
  if m.hostid = 0 then
    { config with gmacroKv := Function.update config.gmacroKv m.macroid (some kv) }
  else { config with hmacroKv := Function.update config.hmacroKv m.macroid (some kv) }

def zbxStrsplitFirst (src : List Char) (delimiter : Char) : List Char × Option (List Char) :=
  match src.dropWhile (· ≠ delimiter) with
  | [] => (src, none)
  | _ :: right => (src.takeWhile (· ≠ delimiter), some right)

def zbxStrsplitLast (src : List Char) (delimiter : Char) : List Char × Option (List Char) :=
  match src.reverse.dropWhile (· ≠ delimiter) with
  | [] => (src, none)
  | _ :: left => (left.reverse, some (src.reverse.takeWhile (· ≠ delimiter)).reverse)

/-- `strcasecmp` finds no difference. -/
def equalCase (s t : List Char) : Bool := s.map Char.toLower = t.map Char.toLower

def Config.ensureKv (config : Config) (location : Location) : Config :=
  if config.kvs.any (·.location = location) then config
  else { config with kvs := config.kvs ++ [⟨location, false, []⟩] }

def umMacroKvRemove (config : Config) (m : Macro) (mkv : Location) : Config :=
  { config with
    kvs := config.kvs.filterMap fun kv =>
      if kv.location = mkv ∧ (m.hostid, m.macroid) ∈ kv.macros then
        let macros := kv.macros.erase (m.hostid, m.macroid)
        if macros = [] then none else some { kv with macros := macros }
      else some kv }

def umMacroRegisterKvs (config : Config) (m : Macro) (location : List Char)
    (dbPath : Option (List Char)) : Option Config :=
  match zbxStrsplitLast location ':' with
  | (_, none) => none
  | (path, some key) =>
    if dbPath.any (equalCase · path) ∧
        (equalCase key "password".toList ∨ equalCase key "username".toList) then none
    else
      let config := config.ensureKv (path, key)
      if config.macroKv m = some (path, key) then some config
      else
        let config := match config.macroKv m with
          | some mkv => umMacroKvRemove config m mkv
          | none => config
        let config := config.setMacroKv m (path, key)
        some { config with
          kvs := config.kvs.map fun kv =>
            if kv.location = (path, key) then
              { kv with
                update := true
                macros := kv.macros ++ [(m.hostid, m.macroid)] }
            else kv }

def umMacroCheckVaultLocation (config : Config) (m : Macro) (location : List Char) : Option Bool :=
  match config.macroKv m with
  | none => some false
  | some mkv =>
    let (path, key) := zbxStrsplitFirst location ':'
    if config.kvs.any (·.location.1 = path) then
      match key with
      | none => none
      | some key => some (config.kvs.any (·.location = (path, key)) ∧ (path, key) = mkv)
    else some false

variable {config config' : Config} {m : Macro} {src left right location path key : List Char}
  {c : Char} {dbPath : Option (List Char)}

/-! ### The two ways to split a text -/

theorem zbxStrsplitFirst_append (hleft : c ∉ left) :
    zbxStrsplitFirst (left ++ c :: right) c = (left, some right) := by
  have hall : ∀ a ∈ left, decide (a ≠ c) = true := fun a ha =>
    decide_eq_true fun h => hleft (h ▸ ha)
  rw [zbxStrsplitFirst, dropWhile_append_of_pos hall, takeWhile_append_of_pos hall]
  simp

theorem zbxStrsplitLast_append (hright : c ∉ right) :
    zbxStrsplitLast (left ++ c :: right) c = (left, some right) := by
  have hall : ∀ a ∈ right.reverse, decide (a ≠ c) = true := fun a ha =>
    decide_eq_true fun h => hright (h ▸ mem_reverse.mp ha)
  rw [zbxStrsplitLast, reverse_append, reverse_cons, append_assoc,
    dropWhile_append_of_pos hall, takeWhile_append_of_pos hall]
  simp

theorem zbxStrsplitLast_some (h : zbxStrsplitLast src c = (left, some right)) :
    src = left ++ c :: right ∧ c ∉ right := by
  by_cases hc : c ∈ src
  · obtain ⟨key, path, hsrc, hkey⟩ := eq_append_cons_of_mem (mem_reverse.mpr hc)
    have hsplit : src = path.reverse ++ c :: key.reverse := by
      rw [← reverse_reverse src, hsrc]
      simp
    have hkey' := mt mem_reverse.mp hkey
    rw [hsplit, zbxStrsplitLast_append hkey'] at h
    obtain ⟨rfl, rfl⟩ := by simpa using h
    exact ⟨hsplit, hkey'⟩
  · have hnone : src.reverse.dropWhile (· ≠ c) = [] :=
      dropWhile_eq_nil_iff.mpr fun a ha => decide_eq_true fun h => hc (h ▸ mem_reverse.mp ha)
    rw [zbxStrsplitLast, hnone] at h
    cases h

/-! ### The registered location -/

theorem macroKv_setMacroKv (config : Config) (m : Macro) (kv : Location) :
    (config.setMacroKv m kv).macroKv m = some kv := by
  unfold Config.macroKv Config.setMacroKv
  split_ifs <;> simp

theorem kvs_setMacroKv (config : Config) (m : Macro) (kv : Location) :
    (config.setMacroKv m kv).kvs = config.kvs := by
  unfold Config.setMacroKv
  split_ifs <;> rfl

theorem exists_ensureKv (config : Config) (kv : Location) :
    ∃ entry ∈ (config.ensureKv kv).kvs, entry.location = kv := by
  unfold Config.ensureKv
  split_ifs with h
  · simpa using h
  · exact ⟨⟨kv, false, []⟩, by simp, rfl⟩

theorem exists_umMacroKvRemove {mkv kv : Location} (hne : mkv ≠ kv)
    (h : ∃ entry ∈ config.kvs, entry.location = kv) :
    ∃ entry ∈ (umMacroKvRemove config m mkv).kvs, entry.location = kv := by
  obtain ⟨entry, hentry, rfl⟩ := h
  exact ⟨entry, mem_filterMap.mpr ⟨entry, hentry, if_neg fun h => hne h.1.symm⟩, rfl⟩

/-- What a registration leaves: the macro and an entry at the parts of the last split. -/
def Registered (config : Config) (m : Macro) (kv : Location) : Prop :=
  config.macroKv m = some kv ∧ ∃ entry ∈ config.kvs, entry.location = kv

theorem registered_of_register (h : umMacroRegisterKvs config m location dbPath = some config') :
    ∃ path key, location = path ++ ':' :: key ∧ ':' ∉ key ∧ Registered config' m (path, key) := by
  unfold umMacroRegisterKvs at h
  split at h
  · cases h
  · next path key hsplit =>
    obtain ⟨hlocation, hkey⟩ := zbxStrsplitLast_some hsplit
    refine ⟨path, key, hlocation, hkey, ?_⟩
    have hensure := exists_ensureKv config (path, key)
    generalize config.ensureKv (path, key) = ensured at h hensure
    dsimp only at h
    split_ifs at h with hcred hsame
    · obtain rfl := Option.some.inj h
      exact ⟨hsame, hensure⟩
    · obtain rfl := Option.some.inj h
      refine ⟨macroKv_setMacroKv _ m (path, key), ?_⟩
      have hkept : ∃ entry ∈ (match ensured.macroKv m with
          | some mkv => umMacroKvRemove ensured m mkv
          | none => ensured).kvs, entry.location = (path, key) := by
        cases hmkv : ensured.macroKv m with
        | none => exact hensure
        | some mkv => exact exists_umMacroKvRemove (fun heq => hsame (heq ▸ hmkv)) hensure
      obtain ⟨entry, hentry, heq⟩ := hkept
      refine ⟨_, mem_map.mpr ⟨entry, (kvs_setMacroKv _ m _).symm ▸ hentry, rfl⟩, ?_⟩
      rw [if_pos heq]
      exact heq

theorem check_of_registered {kv : Location} (h : Registered config m kv) (hleft : ':' ∉ left) :
    umMacroCheckVaultLocation config m (left ++ ':' :: right) = some (decide ((left, right) = kv)) := by
  obtain ⟨hmkv, entry, hentry, heq⟩ := h
  simp only [umMacroCheckVaultLocation, hmkv, zbxStrsplitFirst_append hleft]
  by_cases hkv : (left, right) = kv
  · have hpath : config.kvs.any (·.location.1 = left) = true :=
      any_eq_true.mpr ⟨entry, hentry, by simp [heq, ← hkv]⟩
    have hany : config.kvs.any (·.location = (left, right)) = true :=
      any_eq_true.mpr ⟨entry, hentry, by simp [heq, ← hkv]⟩
    rw [if_pos hpath, hany]
    simp
  · split_ifs <;> simp [hkv]

/-- The check splits at the first separator, the registration at the last one. -/
theorem vault_location_agreement_iff
    (h : umMacroRegisterKvs config m location dbPath = some config') :
    (umMacroCheckVaultLocation config' m location = some true ∧
      ∀ other, ':' ∈ other → other ≠ location →
        umMacroCheckVaultLocation config' m other = some false) ↔ location.count ':' = 1 := by
  obtain ⟨path, key, rfl, hkey, hregistered⟩ := registered_of_register h
  have hcount : (path ++ ':' :: key).count ':' = 1 ↔ ':' ∉ path := by
    rw [count_append, count_cons_self, count_eq_zero.mpr hkey, ← count_eq_zero]
    omega
  rw [hcount]
  constructor
  · rintro ⟨hcheck, -⟩ hpath
    obtain ⟨left, right, hsplit, hleft⟩ :=
      eq_append_cons_of_mem (mem_append_left (':' :: key) hpath)
    rw [hsplit, check_of_registered hregistered hleft] at hcheck
    have heq : (left, right) = (path, key) := by simpa using hcheck
    exact hleft ((Prod.mk.inj heq).1 ▸ hpath)
  · intro hpath
    refine ⟨by simp [check_of_registered hregistered hpath], fun other hother hne => ?_⟩
    obtain ⟨left, right, rfl, hleft⟩ := eq_append_cons_of_mem hother
    rw [check_of_registered hregistered hleft, Option.some_inj, decide_eq_false_iff_not]
    rintro ⟨⟩
    exact hne rfl

def empty : Config := ⟨[], fun _ => none, fun _ => none⟩

theorem vault_location_agreement_one : ∃ config',
    umMacroRegisterKvs empty ⟨1, 0⟩ "a:b".toList none = some config' ∧
      umMacroCheckVaultLocation config' ⟨1, 0⟩ "a:b".toList = some true :=
  ⟨_, rfl, ((@vault_location_agreement_iff empty _ ⟨1, 0⟩ "a:b".toList none rfl).mpr (by decide)).1⟩

theorem vault_location_agreement_two : ∃ config',
    umMacroRegisterKvs empty ⟨1, 0⟩ "a:b:c".toList none = some config' ∧
      umMacroCheckVaultLocation config' ⟨1, 0⟩ "a:b:c".toList = some false :=
  ⟨_, rfl, by decide⟩

end Zabbix.Vault
