import Mathlib.Tactic.Common

/-!
# Assignments of hosts to proxies

What the cache is for, without its data structures: groups have proxies and hosts, a host is
free in its group or is held by a proxy of the group, and the map says which proxy a host was
last given to.
-/

namespace Zabbix.ProxyGroup

open Function

@[ext]
structure Assignment where
  isGroup : ℕ → Prop
  isProxy : ℕ → Prop
  /-- The group of a proxy. -/
  groupOf : ℕ → Option ℕ
  /-- The group lists the proxy. -/
  lists : ℕ → ℕ → Prop
  /-- The group has the host. -/
  hosts : ℕ → ℕ → Prop
  /-- The host waits in the group for a proxy. -/
  free : ℕ → ℕ → Prop
  /-- The proxy has the host. -/
  held : ℕ → ℕ → Prop
  /-- The proxy of a host. -/
  mapped : ℕ → Option ℕ

/-- The assignment is consistent, once the map is changed as `next` says; `groupid` gives the group
of a known host, 0 for none. -/
structure Assignment.Valid (a : Assignment) (next : ℕ → ℕ → Prop) (groupid : ℕ → Option ℕ) : Prop where
  zero : ¬ a.isProxy 0
  group : ∀ g p, a.lists g p ↔ a.groupOf p = some g
  isGroup : ∀ g p, a.lists g p → a.isGroup g
  isProxy : ∀ g p, a.lists g p → a.isProxy p
  hosts_group : ∀ g h, a.hosts g h → a.isGroup g
  free_hosts : ∀ g h, a.free g h → a.hosts g h
  hosts_groupid : ∀ g h, a.hosts g h → groupid h = some g ∧ g ≠ 0
  held_mapped : ∀ p h, a.held p h → a.mapped h = some p
  held_group : ∀ p h, a.held p h → ∃ g, a.groupOf p = some g ∧ a.hosts g h ∧ ¬ a.free g h
  held_next : ∀ p h, a.held p h → ∀ p', next h p' → p' = p
  mapped_proxy : ∀ h p, a.mapped h = some p → a.isProxy p
  mapped_held : ∀ h p, a.mapped h = some p → a.held p h ∨ ∃ p', next h p'
  mapped_known : ∀ h p, a.mapped h = some p → groupid h ≠ none
  next_known : ∀ h p, next h p → groupid h ≠ none
  next_proxy : ∀ h p, next h p → p ≠ 0 → a.isProxy p
  next_held : ∀ h p, next h p → p ≠ 0 → a.held p h ∨
    ∃ g, a.groupOf p = some g ∧ a.hosts g h ∧ ¬ a.free g h
  placed : ∀ g h, a.hosts g h → ¬ a.free g h → ∃ p, a.groupOf p = some g ∧
    (a.held p h ∨ (next h p ∧ p ≠ 0))

def Assignment.Settled (a : Assignment) (next : ℕ → ℕ → Prop) : Prop :=
  ∀ h p, next h p → p ≠ 0 → a.held p h

namespace Assignment

def release (a : Assignment) (g p : ℕ) : Assignment :=
  { a with
    free := fun g' h => a.free g' h ∨ (g' = g ∧ a.held p h)
    held := fun p' h => p' ≠ p ∧ a.held p' h }

def unmap (a : Assignment) (hs : List ℕ) : Assignment :=
  { a with mapped := fun h => if h ∈ hs then none else a.mapped h }

def leave (a : Assignment) (p : ℕ) : Assignment :=
  { a with
    lists := fun g p' => p' ≠ p ∧ a.lists g p'
    groupOf := update a.groupOf p none }

def join (a : Assignment) (g p : ℕ) : Assignment :=
  { a with
    lists := fun g' p' => (g' = g ∧ p' = p) ∨ a.lists g' p'
    groupOf := update a.groupOf p (some g) }

def addGroup (a : Assignment) (g : ℕ) : Assignment :=
  { a with isGroup := fun g' => g' = g ∨ a.isGroup g' }

def removeGroup (a : Assignment) (g : ℕ) : Assignment :=
  { a with
    isGroup := fun g' => g' ≠ g ∧ a.isGroup g'
    groupOf := fun p => if a.groupOf p = some g then none else a.groupOf p
    lists := fun g' p => g' ≠ g ∧ a.lists g' p
    hosts := fun g' h => g' ≠ g ∧ a.hosts g' h
    free := fun g' h => g' ≠ g ∧ a.free g' h }

def addProxy (a : Assignment) (p : ℕ) : Assignment :=
  { a with isProxy := fun p' => p' = p ∨ a.isProxy p' }

def removeProxy (a : Assignment) (p : ℕ) : Assignment :=
  { a with isProxy := fun p' => p' ≠ p ∧ a.isProxy p' }

def removeHost (a : Assignment) (g h : ℕ) : Assignment :=
  { a with
    hosts := fun g' h' => a.hosts g' h' ∧ ¬ (g' = g ∧ h' = h)
    free := fun g' h' => a.free g' h' ∧ ¬ (g' = g ∧ h' = h)
    held := fun p h' => a.held p h' ∧ ¬ (a.mapped h = some p ∧ h' = h) }

def addHost (a : Assignment) (g h : ℕ) : Assignment :=
  { a with
    hosts := fun g' h' => a.hosts g' h' ∨ (g' = g ∧ h' = h)
    free := fun g' h' => a.free g' h' ∨ (g' = g ∧ h' = h) }

def unassign (a : Assignment) (g p h : ℕ) : Assignment :=
  { a with
    free := fun g' h' => a.free g' h' ∨ (g' = g ∧ h' = h)
    held := fun p' h' => a.held p' h' ∧ ¬ (p' = p ∧ h' = h) }

def take (a : Assignment) (g h : ℕ) : Assignment :=
  { a with free := fun g' h' => a.free g' h' ∧ ¬ (g' = g ∧ h' = h) }

def assign (a : Assignment) (h p : ℕ) : Assignment :=
  { a with
    mapped := update a.mapped h (some p)
    held := fun p' h' => a.held p' h' ∨ (p' = p ∧ h' = h) }

def unmapHost (a : Assignment) (h : ℕ) : Assignment :=
  { a with mapped := update a.mapped h none }

end Assignment

def setNext (next : ℕ → ℕ → Prop) (h p : ℕ) : ℕ → ℕ → Prop :=
  fun h' p' => (h' = h ∧ p' = p) ∨ (h' ≠ h ∧ next h' p')

def clearNext (next : ℕ → ℕ → Prop) (hs : ℕ → Prop) : ℕ → ℕ → Prop :=
  fun h p => (hs h ∧ p = 0) ∨ (¬ hs h ∧ next h p)

def doneNext (next : ℕ → ℕ → Prop) (h : ℕ) : ℕ → ℕ → Prop :=
  fun h' p' => h' ≠ h ∧ next h' p'

namespace Assignment.Settled

variable {a : Assignment} {next : ℕ → ℕ → Prop} {groupid : ℕ → Option ℕ}

theorem release (hs : a.Settled next) (g p : ℕ) :
    (a.release g p).Settled (clearNext next (a.held p)) := by
  intro h p' hnext hp'
  obtain ⟨-, hzero⟩ | ⟨hheld, hnext⟩ := hnext
  · exact absurd hzero hp'
  · have hh := hs h p' hnext hp'
    exact ⟨fun heq => hheld (heq ▸ hh), hh⟩

theorem release_unmap (hs : a.Settled next) (v : a.Valid next groupid) (g p : ℕ) (hosts : List ℕ)
    (hnext : ∀ h, a.mapped h = some p → ∀ p', ¬ next h p') :
    ((a.unmap hosts).release g p).Settled next := by
  intro h p' hh hp'
  have hheld := hs h p' hh hp'
  refine ⟨fun heq => hnext h ?_ p' hh, hheld⟩
  exact heq ▸ v.held_mapped p' h hheld

end Assignment.Settled

namespace Assignment.Valid

variable {a : Assignment} {next : ℕ → ℕ → Prop} {groupid : ℕ → Option ℕ} {g p h : ℕ}

variable (v : a.Valid next groupid)

include v

theorem not_free (hg : a.groupOf p = some g) (hh : a.held p h) : ¬ a.free g h := by
  obtain ⟨g', hg', -, hfree⟩ := v.held_group p h hh
  obtain rfl : g = g' := Option.some.inj (hg.symm.trans hg')
  exact hfree

theorem release (hg : a.groupOf p = some g) :
    (a.release g p).Valid (clearNext next (a.held p)) groupid := by
  cases v
  constructor
  all_goals try assumption
  all_goals simp only [Assignment.release, clearNext]
  case mapped_held =>
    intro h p' hp'
    by_cases hheld : a.held p h
    · exact .inr ⟨0, .inl ⟨hheld, rfl⟩⟩
    · grind
  all_goals grind

theorem release_unmap {hs : List ℕ} (hhs : ∀ h, h ∈ hs ↔ a.held p h) (hg : a.groupOf p = some g)
    (hnext : ∀ h, a.mapped h = some p → ∀ p', ¬ next h p') :
    ((a.unmap hs).release g p).Valid next groupid := by
  cases v
  constructor
  all_goals try assumption
  all_goals simp only [Assignment.release, Assignment.unmap]
  all_goals grind

theorem leave (hheld : ∀ h, ¬ a.held p h) (hnext : ∀ h, next h p → p = 0) :
    (a.leave p).Valid next groupid := by
  cases v
  constructor
  all_goals try assumption
  all_goals simp only [Assignment.leave, update_apply]
  all_goals grind

theorem join (hg : a.groupOf p = none) (hgroup : a.isGroup g) (hproxy : a.isProxy p) :
    (a.join g p).Valid next groupid := by
  cases v
  constructor
  all_goals try assumption
  all_goals simp only [Assignment.join, update_apply]
  all_goals grind

theorem addGroup : (a.addGroup g).Valid next groupid := by
  cases v
  constructor
  all_goals try assumption
  all_goals simp only [Assignment.addGroup]
  all_goals grind

theorem removeGroup (hs : a.Settled next) (hheld : ∀ p, a.groupOf p = some g → ∀ h, ¬ a.held p h) :
    (a.removeGroup g).Valid next groupid := by
  cases v
  unfold Assignment.Settled at hs
  constructor
  all_goals try assumption
  all_goals simp only [Assignment.removeGroup]
  all_goals grind

theorem addProxy (hp : p ≠ 0) : (a.addProxy p).Valid next groupid := by
  cases v
  constructor
  all_goals try assumption
  all_goals simp only [Assignment.addProxy]
  all_goals grind

theorem removeProxy (hg : a.groupOf p = none) (hmap : ∀ h, a.mapped h ≠ some p)
    (hnext : ∀ h, next h p → p = 0) :
    (a.removeProxy p).Valid next groupid := by
  cases v
  constructor
  all_goals try assumption
  all_goals simp only [Assignment.removeProxy]
  all_goals grind

theorem removeHost_setNext (hg : groupid h = some g) :
    (a.removeHost g h).Valid (setNext next h 0) groupid := by
  cases v
  constructor
  all_goals try assumption
  all_goals simp only [Assignment.removeHost, setNext]
  case mapped_held =>
    intro h' p' hp'
    by_cases heq : h' = h
    · exact .inr ⟨0, .inl ⟨heq, rfl⟩⟩
    · grind
  all_goals grind

theorem removeHost (hmap : a.mapped h = none) (hs : a.Settled next) :
    (a.removeHost g h).Valid next groupid := by
  cases v
  unfold Assignment.Settled at hs
  constructor
  all_goals try assumption
  all_goals simp only [Assignment.removeHost]
  all_goals grind

theorem addHost (hgroup : a.isGroup g) (hg : g ≠ 0) (hhost : ∀ g', ¬ a.hosts g' h) :
    (a.addHost g h).Valid next (update groupid h (some g)) := by
  cases v
  constructor
  all_goals try assumption
  all_goals simp only [Assignment.addHost, update_apply]
  all_goals grind

theorem setGroupid (hhost : ∀ g', ¬ a.hosts g' h) : a.Valid next (update groupid h (some g)) := by
  cases v
  constructor
  all_goals try assumption
  all_goals simp only [update_apply]
  all_goals grind

theorem setNext_zero (hheld : ∀ p, ¬ a.held p h) (hhosts : ∀ g, a.hosts g h → a.free g h)
    (hknown : groupid h ≠ none) :
    a.Valid (setNext next h 0) groupid := by
  cases v
  constructor
  all_goals try assumption
  all_goals simp only [setNext]
  case mapped_held =>
    intro h' p' hp'
    by_cases heq : h' = h
    · exact .inr ⟨0, .inl ⟨heq, rfl⟩⟩
    · grind
  all_goals grind

omit v

theorem of_unknown (v : a.Valid next fun _ => none) : a.Valid next groupid := by
  cases v
  constructor
  all_goals try assumption
  all_goals grind

variable (v : a.Valid next groupid)

include v

theorem rename (hheld : a.held p h) : a.Valid (setNext next h p) groupid := by
  cases v
  constructor
  all_goals try assumption
  all_goals simp only [setNext]
  case mapped_held =>
    intro h' p' hp'
    by_cases heq : h' = h
    · exact .inr ⟨p, .inl ⟨heq, rfl⟩⟩
    · grind
  all_goals grind

theorem unassign (hg : a.groupOf p = some g) (hheld : a.held p h) :
    (a.unassign g p h).Valid (setNext next h 0) groupid := by
  cases v
  constructor
  all_goals try assumption
  all_goals simp only [Assignment.unassign, setNext]
  case mapped_held =>
    intro h' p' hp'
    by_cases heq : h' = h
    · exact .inr ⟨0, .inl ⟨heq, rfl⟩⟩
    · grind
  all_goals grind

theorem take (hg : a.groupOf p = some g) (hfree : a.free g h) :
    (a.take g h).Valid (setNext next h p) groupid := by
  obtain ⟨hzero, hgroup, hisGroup, hisProxy, hhostsGroup, hfree, hgroupid, hmapped, hheldGroup,
    hheldNext, hmappedProxy, hmappedHeld, hmappedKnown, hnextKnown,
    hnextProxy, hnextHeld, hplaced⟩ := v
  have hp : a.isProxy p := hisProxy g p ((hgroup g p).mpr hg)
  have hne : p ≠ 0 := fun heq => hzero (heq ▸ hp)
  constructor
  all_goals try assumption
  all_goals simp only [Assignment.take, setNext]
  case mapped_held =>
    intro h' p' hp'
    by_cases heq : h' = h
    · exact .inr ⟨p, .inl ⟨heq, rfl⟩⟩
    · grind
  all_goals grind

theorem assign (hnext : next h p) (hp : p ≠ 0) (hunique : ∀ p', next h p' → p' = p) :
    (a.assign h p).Valid (doneNext next h) groupid := by
  cases v
  constructor
  all_goals try assumption
  all_goals simp only [Assignment.assign, doneNext, update_apply]
  all_goals grind

theorem unmapHost (hnext : next h 0) (hunique : ∀ p', next h p' → p' = 0) :
    (a.unmapHost h).Valid (doneNext next h) groupid := by
  cases v
  constructor
  all_goals try assumption
  all_goals simp only [Assignment.unmapHost, doneNext, update_apply]
  all_goals grind

omit v

end Assignment.Valid

end Zabbix.ProxyGroup
