import Mathlib.Data.List.Induction
import Mathlib.Order.Basic

/-!
# Update flags of the timers

`dbconfig_maintenance.c`. The flags are the bits of an array of 64-bit words; `memcmp` sees its bytes,
the lowest one of a word first.
-/

namespace Zabbix.Maintenance

open Nat List Option

abbrev Flags := List (BitVec 64)

def zbxMaintenanceUpdateFlagsNum (timers : ℕ) : ℕ := (timers + 63) / 64

/-- `memset` and the shift of the last word where it is not full. -/
def zbxDcMaintenanceSetUpdateFlags (timers : ℕ) : Flags :=
  let slotsNum := zbxMaintenanceUpdateFlagsNum timers
  let flags := replicate slotsNum (BitVec.allOnes 64)
  if timers % 64 ≠ 0 then flags.modify (slotsNum - 1) fun word => word >>> (64 - timers % 64)
  else flags

def zbxDcMaintenanceResetUpdateFlag (flags : Flags) (timer : ℕ) : Flags :=
  flags.modify ((timer - 1) / 64) fun word => word &&& ~~~(1#64 <<< ((timer - 1) % 64))

def zbxDcMaintenanceCheckUpdateFlag (flags : Flags) (timer : ℕ) : Bool :=
  flags.getD ((timer - 1) / 64) 0#64 &&& 1#64 <<< ((timer - 1) % 64) ≠ 0#64

def byteAt (flags : Flags) (i : ℕ) : BitVec 8 :=
  (flags.getD (i / 8) 0#64).extractLsb' (8 * (i % 8)) 8

def memcmp (flags : Flags) (p q n : ℕ) : Bool :=
  (range n).any fun i => byteAt flags (p + i) ≠ byteAt flags (q + i)

def zbxDcMaintenanceCheckUpdateFlags (timers : ℕ) (flags : Flags) : Bool :=
  let slotsNum := zbxMaintenanceUpdateFlagsNum timers
  if flags.getD 0 0#64 ≠ 0#64 then true
  else if slotsNum ≠ 1 then memcmp flags 0 8 (slotsNum - 1)
  else false

inductive FlagOperation
  | setUpdateFlags
  | resetUpdateFlag (timer : ℕ)
  | checkUpdateFlag (timer : ℕ)
  | checkUpdateFlags
  deriving DecidableEq

def FlagOperation.apply (timers : ℕ) (flags : Flags) : FlagOperation → Flags
  | .setUpdateFlags => zbxDcMaintenanceSetUpdateFlags timers
  | .resetUpdateFlag timer => zbxDcMaintenanceResetUpdateFlag flags timer
  | .checkUpdateFlag _ | .checkUpdateFlags => flags

def FlagOperation.Within (timers : ℕ) : FlagOperation → Prop
  | .resetUpdateFlag timer | .checkUpdateFlag timer => 1 ≤ timer ∧ timer ≤ timers
  | _ => True

def flagsAfter (timers : ℕ) (ops : List FlagOperation) : Flags :=
  ops.foldl (FlagOperation.apply timers)
    (replicate (zbxMaintenanceUpdateFlagsNum timers) 0#64)

def SetSinceReset (ops : List FlagOperation) (timer : ℕ) : Prop :=
  ∃ before after, ops = before ++ .setUpdateFlags :: after ∧ .resetUpdateFlag timer ∉ after

def flagBit (flags : Flags) (k : ℕ) : Bool := (flags.getD (k / 64) 0#64).getLsbD (k % 64)

variable {timers timer : ℕ} {flags : Flags} {ops : List FlagOperation}

theorem getLsbD_bit (b i : ℕ) (hi : i < 64) : (1#64 <<< b).getLsbD i = decide (i = b) := by
  rw [BitVec.getLsbD_shiftLeft, BitVec.getLsbD_one, Bool.eq_iff_iff]
  simp only [hi, Bool.and_eq_true, Bool.not_eq_true', decide_eq_true_eq, decide_eq_false_iff_not,
    decide_true, true_and]
  omega

theorem flagBit_set (timers k : ℕ) :
    flagBit (zbxDcMaintenanceSetUpdateFlags timers) k = decide (k < timers) := by
  unfold flagBit zbxDcMaintenanceSetUpdateFlags zbxMaintenanceUpdateFlagsNum
  have hbit : k % 64 < 64 := mod_lt k (by decide)
  dsimp only
  rw [getD_eq_getElem?_getD]
  split_ifs with hpart
  · rw [List.getElem?_modify, List.getElem?_replicate]
    by_cases hlast : (timers + 63) / 64 - 1 = k / 64
    · have hslot : k / 64 < (timers + 63) / 64 := by omega
      simp only [hlast, hslot, if_true, Option.map_eq_map, map_some, getD_some,
        BitVec.getLsbD_ushiftRight, BitVec.getLsbD_allOnes]
      exact decide_eq_decide.mpr (by omega)
    · by_cases hslot : k / 64 < (timers + 63) / 64
      · simp only [hlast, hslot, if_true, if_false, Option.map_eq_map, Option.map_id_fun', id_eq,
          getD_some, BitVec.getLsbD_allOnes, hbit, decide_true]
        exact (decide_eq_true (by omega)).symm
      · simp only [hlast, hslot, if_false, Option.map_eq_map, map_none, getD_none,
          BitVec.getLsbD_zero]
        exact (decide_eq_false (by omega)).symm
  · rw [List.getElem?_replicate]
    by_cases hslot : k / 64 < (timers + 63) / 64
    · simp only [hslot, if_true, getD_some, BitVec.getLsbD_allOnes, hbit, decide_true]
      exact (decide_eq_true (by omega)).symm
    · simp only [hslot, if_false, getD_none, BitVec.getLsbD_zero]
      exact (decide_eq_false (by omega)).symm

theorem flagBit_reset (flags : Flags) (timer k : ℕ) :
    flagBit (zbxDcMaintenanceResetUpdateFlag flags timer) k =
      (flagBit flags k && decide (k ≠ timer - 1)) := by
  have hbit : k % 64 < 64 := mod_lt k (by decide)
  unfold flagBit zbxDcMaintenanceResetUpdateFlag
  rw [getD_eq_getElem?_getD, getD_eq_getElem?_getD, List.getElem?_modify]
  by_cases hslot : (timer - 1) / 64 = k / 64
  · have hsame : k % 64 = (timer - 1) % 64 ↔ k = timer - 1 := by omega
    cases flags[k / 64]? with
    | none => simp [hslot]
    | some word =>
      simp only [hslot, if_true, Option.map_eq_map, map_some, getD_some,
        BitVec.getLsbD_and, BitVec.getLsbD_not, hbit, decide_true, Bool.true_and,
        getLsbD_bit _ _ hbit, hsame, decide_not]
  · have hne : k ≠ timer - 1 := by
      rintro rfl
      exact hslot rfl
    simp [hslot, hne]

theorem checkUpdateFlag_eq (flags : Flags) (timer : ℕ) :
    zbxDcMaintenanceCheckUpdateFlag flags timer = flagBit flags (timer - 1) := by
  have hbit : (timer - 1) % 64 < 64 := mod_lt _ (by decide)
  rw [Bool.eq_iff_iff, zbxDcMaintenanceCheckUpdateFlag, decide_eq_true_eq, flagBit]
  generalize flags.getD ((timer - 1) / 64) 0#64 = word
  generalize (timer - 1) % 64 = b at hbit
  constructor
  · intro hne
    by_contra hclear
    refine hne (BitVec.eq_of_getLsbD_eq fun i hi => ?_)
    rw [BitVec.getLsbD_and, getLsbD_bit b i hi, BitVec.getLsbD_zero]
    by_cases heq : i = b
    · rw [heq, Bool.eq_false_iff.mpr hclear, Bool.false_and]
    · rw [decide_eq_false heq, Bool.and_false]
  · intro hset hzero
    have hb := congrArg (fun w => w.getLsbD b) hzero
    simp [getLsbD_bit b b hbit, hset] at hb

theorem byteAt_eq_zero (flags : Flags) (i : ℕ) :
    byteAt flags i = 0#8 ↔ ∀ j < 8, flagBit flags (8 * i + j) = false := by
  have hplace : ∀ j < 8, (8 * i + j) / 64 = i / 8 ∧ (8 * i + j) % 64 = 8 * (i % 8) + j := by omega
  constructor
  · intro hzero j hj
    have hbit := congrArg (fun b => b.getLsbD j) hzero
    rw [flagBit, (hplace j hj).1, (hplace j hj).2]
    simpa [byteAt, BitVec.getLsbD_extractLsb', hj] using hbit
  · intro hclear
    refine BitVec.eq_of_getLsbD_eq fun j hj => ?_
    have hbit := hclear j hj
    rw [flagBit, (hplace j hj).1, (hplace j hj).2] at hbit
    rw [byteAt, BitVec.getLsbD_extractLsb', hbit, Bool.and_false, BitVec.getLsbD_zero]

theorem word_eq_zero (flags : Flags) :
    flags.getD 0 0#64 = 0#64 ↔ ∀ k < 64, flagBit flags k = false := by
  constructor
  · intro hzero k hk
    rw [flagBit, div_eq_of_lt hk, hzero, BitVec.getLsbD_zero]
  · intro hclear
    refine BitVec.eq_of_getLsbD_eq fun k hk => ?_
    have hbit := hclear k hk
    rw [flagBit, div_eq_of_lt hk, mod_eq_of_lt hk] at hbit
    rw [hbit, BitVec.getLsbD_zero]

theorem memcmp_eq_false (flags : Flags) (n : ℕ) (hfirst : ∀ k < 64, flagBit flags k = false) :
    memcmp flags 0 8 n = false ↔ ∀ k < 64 + 8 * n, flagBit flags k = false := by
  have hsame : memcmp flags 0 8 n = false ↔ ∀ i < n, byteAt flags i = byteAt flags (8 + i) := by
    simp [memcmp]
  rw [hsame]
  constructor
  · intro hbytes
    -- the bytes are equal to the ones a word below, down to the first word
    have hzero : ∀ i < 8 + n, byteAt flags i = 0#8 := by
      intro i
      induction i using Nat.strongRecOn with
      | _ i ih =>
        intro hi
        by_cases hword : i < 8
        · exact (byteAt_eq_zero flags i).mpr fun j hj => hfirst _ (by omega)
        · have hbelow := hbytes (i - 8) (by omega)
          rw [ih (i - 8) (by omega) (by omega), Nat.add_sub_cancel' (Nat.not_lt.mp hword)] at hbelow
          exact hbelow.symm
    intro k hk
    have hbit := (byteAt_eq_zero flags (k / 8)).mp (hzero _ (by omega)) (k % 8) (by omega)
    rwa [div_add_mod] at hbit
  · intro hclear i hi
    rw [(byteAt_eq_zero flags i).mpr fun j hj => hclear _ (by omega),
      (byteAt_eq_zero flags (8 + i)).mpr fun j hj => hclear _ (by omega)]

theorem checkUpdateFlags_iff (timers : ℕ) (flags : Flags) :
    zbxDcMaintenanceCheckUpdateFlags timers flags = true ↔
      ∃ k < 64 + 8 * (zbxMaintenanceUpdateFlagsNum timers - 1), flagBit flags k = true := by
  unfold zbxDcMaintenanceCheckUpdateFlags
  generalize zbxMaintenanceUpdateFlagsNum timers = slotsNum
  dsimp only
  by_cases hword : flags.getD 0 0#64 = 0#64
  · have hfirst := (word_eq_zero flags).mp hword
    have hcompared := memcmp_eq_false flags (slotsNum - 1) hfirst
    have hguard : (if slotsNum ≠ 1 then memcmp flags 0 8 (slotsNum - 1) else false) =
        memcmp flags 0 8 (slotsNum - 1) := by
      split_ifs with hone
      · rfl
      · rw [not_not.mp hone]
        rfl
    rw [if_neg (not_not.mpr hword), hguard, ← not_iff_not, Bool.not_eq_true, hcompared]
    push Not
    simp only [Bool.not_eq_true]
  · rw [if_pos hword]
    obtain ⟨k, hk, hbit⟩ : ∃ k < 64, flagBit flags k = true := by
      by_contra hnone
      push Not at hnone
      exact hword ((word_eq_zero flags).mpr fun k hk => Bool.eq_false_iff.mpr (hnone k hk))
    exact iff_of_true rfl ⟨k, by omega, hbit⟩

theorem setSinceReset_append (ops : List FlagOperation) (op : FlagOperation) (timer : ℕ) :
    SetSinceReset (ops ++ [op]) timer ↔
      op = .setUpdateFlags ∨ op ≠ .resetUpdateFlag timer ∧ SetSinceReset ops timer := by
  constructor
  · rintro ⟨before, after, heq, hreset⟩
    induction after using reverseRecOn with
    | nil => exact .inl (append_inj' heq rfl |>.2 |> head_eq_of_cons_eq)
    | append_singleton after last _ =>
      rw [← cons_append, ← append_assoc] at heq
      obtain ⟨hops, hlast⟩ := append_inj' heq rfl
      obtain rfl := head_eq_of_cons_eq hlast
      simp only [mem_append, mem_singleton, not_or] at hreset
      exact .inr ⟨Ne.symm hreset.2, before, after, hops, hreset.1⟩
  · rintro (rfl | ⟨hne, before, after, rfl, hreset⟩)
    · exact ⟨ops, [], rfl, not_mem_nil⟩
    · refine ⟨before, after ++ [op], by simp, ?_⟩
      simp [hreset, Ne.symm hne]

theorem flagBit_after (htimer : 1 ≤ timer ∧ timer ≤ timers) (hops : ∀ op ∈ ops, op.Within timers) :
    flagBit (flagsAfter timers ops) (timer - 1) = true ↔ SetSinceReset ops timer := by
  induction ops using reverseRecOn with
  | nil =>
    refine iff_of_false ?_ fun ⟨before, after, h, _⟩ => by simp at h
    rw [flagBit, flagsAfter, foldl_nil, getD_eq_getElem?_getD, List.getElem?_replicate]
    split_ifs <;> simp
  | append_singleton ops op ih =>
    have ih := ih fun op' hop => hops op' (mem_append_left _ hop)
    have hlast := hops op (mem_append_right _ mem_cons_self)
    rw [setSinceReset_append, ← ih, flagsAfter, foldl_append, ← flagsAfter]
    cases op with
    | setUpdateFlags =>
      refine iff_of_true ?_ (.inl rfl)
      exact (flagBit_set timers _).trans (decide_eq_true (by omega))
    | resetUpdateFlag other =>
      have hother : timer - 1 ≠ other - 1 ↔ other ≠ timer := by
        have hpos : 1 ≤ other := hlast.1
        omega
      simp [FlagOperation.apply, flagBit_reset, hother, and_comm]
    | checkUpdateFlag other | checkUpdateFlags => simp [FlagOperation.apply]

theorem flagBit_after_ge (k : ℕ) (hk : timers ≤ k) : flagBit (flagsAfter timers ops) k = false := by
  induction ops using reverseRecOn with
  | nil =>
    rw [flagBit, flagsAfter, foldl_nil, getD_eq_getElem?_getD, List.getElem?_replicate]
    split_ifs <;> simp
  | append_singleton ops op ih =>
    rw [flagsAfter, foldl_append, ← flagsAfter]
    cases op with
    | setUpdateFlags => exact (flagBit_set timers k).trans (decide_eq_false (Nat.not_lt.mpr hk))
    | resetUpdateFlag other => simp [FlagOperation.apply, flagBit_reset, ih]
    | checkUpdateFlag other => exact ih
    | checkUpdateFlags => exact ih

/-- After the operations both checks answer as the timers' flags are. -/
def FlagsAgree (timers : ℕ) (ops : List FlagOperation) : Prop :=
  (∀ timer, 1 ≤ timer ∧ timer ≤ timers →
    (zbxDcMaintenanceCheckUpdateFlag (flagsAfter timers ops) timer = true ↔
      SetSinceReset ops timer)) ∧
  (zbxDcMaintenanceCheckUpdateFlags timers (flagsAfter timers ops) = true ↔
    ∃ timer, (1 ≤ timer ∧ timer ≤ timers) ∧ SetSinceReset ops timer)

/-- The checks agree with the flags after a run exactly if one of the timers whose flags are compared
has its flag set when any has. -/
theorem maintenance_update_flags_iff (timers : ℕ) (ops : List FlagOperation)
    (hops : ∀ op ∈ ops, op.Within timers) :
    FlagsAgree timers ops ↔
      ((∃ timer, (1 ≤ timer ∧ timer ≤ timers) ∧ SetSinceReset ops timer) →
        ∃ timer, (1 ≤ timer ∧ timer ≤ timers) ∧ SetSinceReset ops timer ∧
          timer ≤ 64 + 8 * (zbxMaintenanceUpdateFlagsNum timers - 1)) := by
  have hsome : zbxDcMaintenanceCheckUpdateFlags timers (flagsAfter timers ops) = true ↔
      ∃ timer, (1 ≤ timer ∧ timer ≤ timers) ∧ SetSinceReset ops timer ∧
        timer ≤ 64 + 8 * (zbxMaintenanceUpdateFlagsNum timers - 1) := by
    rw [checkUpdateFlags_iff]
    constructor
    · rintro ⟨k, hk, hbit⟩
      have hlt : k < timers := by
        by_contra hge
        rw [flagBit_after_ge k (Nat.not_lt.mp hge)] at hbit
        exact Bool.false_ne_true hbit
      have hwithin : 1 ≤ k + 1 ∧ k + 1 ≤ timers := by omega
      exact ⟨k + 1, hwithin, (flagBit_after hwithin hops).mp hbit, by omega⟩
    · rintro ⟨timer, htimer, hset, hle⟩
      exact ⟨timer - 1, by omega, (flagBit_after htimer hops).mpr hset⟩
  constructor
  · intro h hany
    exact hsome.mp (h.2.mpr hany)
  · intro h
    refine ⟨fun timer htimer => ?_, hsome.trans ⟨?_, h⟩⟩
    · rw [checkUpdateFlag_eq]
      exact flagBit_after htimer hops
    · rintro ⟨timer, htimer, hset, _⟩
      exact ⟨timer, htimer, hset⟩

theorem maintenance_update_flags_two :
    FlagsAgree 2 [.setUpdateFlags, .resetUpdateFlag 1] :=
  (maintenance_update_flags_iff 2 _ (by simp [FlagOperation.Within])).mpr fun _ =>
    ⟨2, by omega, ⟨[], [.resetUpdateFlag 1], rfl, by simp⟩, by decide⟩

def lastTimerLeft : List FlagOperation :=
  .setUpdateFlags :: (range 72).map fun k => .resetUpdateFlag (k + 1)

theorem maintenance_update_flags_missed : ¬ FlagsAgree 73 lastTimerLeft := by
  have hmissed : zbxDcMaintenanceCheckUpdateFlags 73 (flagsAfter 73 lastTimerLeft) = false := by
    decide +kernel
  intro h
  refine Bool.false_ne_true (hmissed.symm.trans (h.2.mpr ⟨73, by omega, [], _, rfl, ?_⟩))
  simp

end Zabbix.Maintenance
