import Mathlib.Data.List.Perm.Basic
import Zabbix.Agent.ResultCache

/-!
# What the memory cache keeps

The counters, the order of the results, and which results leave the cache without having been
sent.
-/

namespace Zabbix.ResultCache

open List Zabbix.Transition

variable {c c' : MemoryCache} {data : AgentData} {u : Reply} {up : Option Upload} {s t : System}
  {e : Event}
variable {i n : ℕ} {results : List AgentData} {d : AgentData} {a : Upload}

theorem int32_zero : int32 0 = 0 := by decide

theorem int32_add (a b : ℤ) : int32 (int32 a + b) = int32 (a + b) := Int.bmod_add_bmod

inductive Flushed (c : MemoryCache) : MemoryCache → Option Upload → Prop
  | sent (c' : MemoryCache) (a : Upload) (hsucceeded : a.succeeded = true)
      (hdata : a.data = c.results) (hresults : c'.results = []) (htotal : c'.totalValueNum = 0)
      (hpersist : c'.persistValueNum = 0) (hid : c'.lastDataID = c.lastDataID) :
      Flushed c c' (some a)
  | kept (c' : MemoryCache) (up : Option Upload)
      (hfailed : ∀ a ∈ up, a.succeeded = false ∧ a.data = c.results)
      (hresults : c'.results = c.results) (htotal : c'.totalValueNum = c.totalValueNum)
      (hpersist : c'.persistValueNum = c.persistValueNum) (hid : c'.lastDataID = c.lastDataID) :
      Flushed c c' up

theorem flushOutput_flushed (c : MemoryCache) (u : Reply) :
    Flushed c (c.flushOutput u).1 (c.flushOutput u).2 := by
  unfold MemoryCache.flushOutput MemoryCache.upload
  dsimp only
  split_ifs with hempty hmarshal herrs
  · exact .kept _ _ nofun rfl rfl rfl rfl
  · refine .kept _ _ ?_ rfl rfl rfl rfl
    rintro a ⟨⟩
    exact ⟨by simp [hmarshal], rfl⟩
  · refine .kept _ _ ?_ rfl rfl rfl rfl
    rintro a ⟨⟩
    exact ⟨by simp [herrs], rfl⟩
  · refine .sent _ _ ?_ rfl rfl rfl rfl rfl
    simpa [herrs] using hmarshal

def Evicts (c : MemoryCache) (data : AgentData) (i : ℕ) : Prop :=
  data.persistent = false ∧ c.results.findIdx? (·.itemid = data.itemid) = some i ∨
    c.results.findIdx? (!·.persistent) = some i ∧
      (data.persistent = true ∨ c.results.findIdx? (·.itemid = data.itemid) = none)

def persistAfter (c : MemoryCache) (data : AgentData) : ℤ :=
  if data.persistent then int32 (c.persistValueNum + 1) else c.persistValueNum

inductive Written (c : MemoryCache) (data : AgentData) : MemoryCache → Option Upload → Prop
  | appended (c' : MemoryCache) (up : Option Upload)
      (hfailed : ∀ a ∈ up, a.succeeded = false ∧ a.data = c.results ++ [data])
      (hresults : c'.results = c.results ++ [data])
      (htotal : c'.totalValueNum = int32 (c.totalValueNum + 1))
      (hpersist : c'.persistValueNum = persistAfter c data) (hid : c'.lastDataID = c.lastDataID) :
      Written c data c' up
  | sent (c' : MemoryCache) (a : Upload) (hsucceeded : a.succeeded = true)
      (hdata : a.data = c.results ++ [data]) (hresults : c'.results = [])
      (htotal : c'.totalValueNum = 0) (hpersist : c'.persistValueNum = 0)
      (hid : c'.lastDataID = c.lastDataID) : Written c data c' (some a)
  | replaced (c' : MemoryCache) (i : ℕ) (hfull : c.maxBufferSize ≤ c.totalValueNum)
      (hevicts : Evicts c data i) (hresults : c'.results = c.results.eraseIdx i ++ [data])
      (htotal : c'.totalValueNum = c.totalValueNum)
      (hpersist : c'.persistValueNum = persistAfter c data) (hid : c'.lastDataID = c.lastDataID) :
      Written c data c' none

def MemoryCache.added (c : MemoryCache) (data : AgentData) : MemoryCache :=
  { c with
    results := c.results ++ [data]
    totalValueNum := int32 (c.totalValueNum + 1)
    persistValueNum := persistAfter c data }

theorem addResult_eq (c : MemoryCache) (data : AgentData) (u : Reply) :
    c.addResult data u =
      if (c.added data).full ∧ c.full = false ∧ c.uploader then (c.added data).flushOutput u
      else (c.added data, none) := rfl

theorem addResult_written (c : MemoryCache) (data : AgentData) (u : Reply) :
    Written c data (c.addResult data u).1 (c.addResult data u).2 := by
  rw [addResult_eq]
  split_ifs
  · have hflushed := flushOutput_flushed (c.added data) u
    generalize (c.added data).flushOutput u = flushed at hflushed ⊢
    obtain ⟨c', up⟩ := flushed
    cases hflushed with
    | sent a hsucceeded hdata hresults htotal hpersist hid =>
      exact .sent c' a hsucceeded hdata hresults htotal hpersist hid
    | kept _ hfailed hresults htotal hpersist hid =>
      exact .appended c' up hfailed hresults htotal hpersist hid
  · exact .appended _ _ nofun rfl rfl rfl rfl

theorem findReplaced_evicts {persistValueNum : ℤ}
    (h : c.findReplaced data = (some i, persistValueNum)) :
    Evicts c data i ∧ persistValueNum = persistAfter c data := by
  unfold MemoryCache.findReplaced at h
  dsimp only at h
  split_ifs at h with hpersistent hsearch hsearch
  · cases hother : c.results.findIdx? (!·.persistent) with
    | none =>
      rw [hother] at h
      cases h
    | some j =>
      rw [hother] at h
      cases h
      exact ⟨.inr ⟨hother, .inl hpersistent⟩, (if_pos hpersistent).symm⟩
  · cases h
  · cases hother : c.results.findIdx? (!·.persistent) with
    | none =>
      rw [hother] at h
      cases h
    | some j =>
      rw [hother] at h
      cases h
      exact ⟨.inr ⟨hother, .inr hsearch.1⟩, (if_neg hpersistent).symm⟩
  · obtain ⟨hsame, rfl⟩ := Prod.mk.inj h
    exact ⟨.inl ⟨Bool.eq_false_iff.mpr hpersistent, hsame⟩, (if_neg hpersistent).symm⟩

theorem write_written (c : MemoryCache) (r : PluginResult) (u : Reply) :
    Written { c with lastDataID := c.lastDataID + 1 } (agentData (c.lastDataID + 1) r)
      (c.write r u).1 (c.write r u).2 := by
  unfold MemoryCache.write MemoryCache.insertResult
  dsimp only
  split_ifs with hfull
  · split
    · exact addResult_written _ _ u
    · next i persistValueNum hreplaced =>
      obtain ⟨hevicts, hpersist⟩ := findReplaced_evicts hreplaced
      exact .replaced _ i hfull hevicts rfl rfl hpersist rfl
  · exact addResult_written _ _ u

def Delivered (s : System) (d : AgentData) : Prop :=
  ∃ a ∈ s.uploads, a.succeeded = true ∧ d ∈ a.data

inductive Steps (s : System) : System → Prop
  | flushed (t : System) (up : Option Upload) (hcache : Flushed s.cache t.cache up)
      (huploads : t.uploads = s.uploads ++ up.toList) (hwritten : t.written = s.written) : Steps s t
  | written (t : System) (r : PluginResult) (input : List Message) (up : Option Upload)
      (hinput : s.input = .result r :: input) (hrest : t.input = input)
      (hcache : Written { s.cache with lastDataID := s.cache.lastDataID + 1 }
        (agentData (s.cache.lastDataID + 1) r) t.cache up)
      (huploads : t.uploads = s.uploads ++ up.toList)
      (hwritten : t.written = s.written ++ [agentData (s.cache.lastDataID + 1) r]) : Steps s t

theorem Flushed.refl_of {c c' : MemoryCache} (hresults : c'.results = c.results)
    (htotal : c'.totalValueNum = c.totalValueNum)
    (hpersist : c'.persistValueNum = c.persistValueNum)
    (hid : c'.lastDataID = c.lastDataID) : Flushed c c' none :=
  .kept _ _ nofun hresults htotal hpersist hid

theorem step_cases (h : step s e = some t) :
    (∃ messages, (∀ r, .result r ∈ messages → e = .send (.result r)) ∧
        t = { s with input := s.input ++ messages }) ∨
      (∃ enabled, t = { s with cache := s.cache.enableUpload enabled }) ∨
        ∃ u message input, e = .receive u ∧ s.input = message :: input ∧
          t = ({ s with input := input } : System).process message u := by
  have hsend {message : Message} (h : s.send message = some t) :
      t = { s with input := s.input ++ [message] } := by
    obtain ⟨-, heq⟩ := Option.ite_none_right_eq_some.mp h
    exact (Option.some.inj heq).symm
  have hrequest (h : (if s.cache.historyUpload then s.send .uploader else some s) = some t) :
      ∃ messages, (∀ r, .result r ∈ messages → e = .send (.result r)) ∧
        t = { s with input := s.input ++ messages } := by
    split_ifs at h
    · exact ⟨[.uploader], by simp, hsend h⟩
    · exact ⟨[], by simp, by rw [← Option.some.inj h, append_nil]⟩
  cases e with
  | send message =>
    refine .inl ⟨[message], fun r hr => ?_, hsend h⟩
    rw [mem_singleton.mp hr]
  | requestUpload => exact .inl (hrequest h)
  | retryTimer =>
    obtain ⟨-, heq⟩ := Option.ite_none_right_eq_some.mp h
    exact .inl (hrequest heq)
  | enableUpload enabled => exact .inr (.inl ⟨enabled, (Option.some.inj h).symm⟩)
  | receive u =>
    rw [step] at h
    split at h
    · next message input hinput =>
      obtain ⟨-, heq⟩ := Option.ite_none_right_eq_some.mp h
      exact .inr (.inr ⟨u, message, input, rfl, hinput, (Option.some.inj heq).symm⟩)
    · cases h

theorem process_input (message : Message) : (s.process message u).input = s.input := by
  cases message <;> rfl

theorem steps_of_step (h : step s e = some t) : Steps s t := by
  obtain ⟨messages, -, rfl⟩ | ⟨enabled, rfl⟩ | ⟨u, message, input, -, hinput, rfl⟩ := step_cases h
  · exact .flushed _ none (.refl_of rfl rfl rfl rfl) (append_nil _).symm rfl
  · exact .flushed _ none (.refl_of rfl rfl rfl rfl) (append_nil _).symm rfl
  · cases message with
    | uploader => exact .flushed _ _ (flushOutput_flushed s.cache u) rfl rfl
    | result r => exact .written _ r input _ hinput rfl (write_written s.cache r u) rfl rfl
    | command cr
    | options n
    | stop => exact .flushed _ none (.refl_of rfl rfl rfl rfl) (append_nil _).symm rfl

structure Ordered (s : System) : Prop where
  total : s.cache.totalValueNum = int32 s.cache.results.length
  ascending : s.cache.results.Pairwise (·.id < ·.id)
  bound : ∀ d ∈ s.cache.results, d.id ≤ s.cache.lastDataID

theorem Evicts.lt (h : Evicts c data i) : i < c.results.length := by
  obtain ⟨-, h⟩ | ⟨h, -⟩ := h
  · exact (findIdx?_eq_some_iff_getElem.mp h).1
  · exact (findIdx?_eq_some_iff_getElem.mp h).1

theorem agentData_id (id : ℕ) (r : PluginResult) : (agentData id r).id = id := rfl

theorem ordered_append {kept : List AgentData} {data : AgentData} (hkept : kept.Sublist results)
    (hascending : results.Pairwise (·.id < ·.id)) (hbound : ∀ d ∈ results, d.id ≤ n)
    (hid : data.id = n + 1) :
    (kept ++ [data]).Pairwise (·.id < ·.id) ∧ ∀ d ∈ kept ++ [data], d.id ≤ n + 1 := by
  have hkeptBound : ∀ d ∈ kept, d.id ≤ n := fun d hd => hbound d (hkept.subset hd)
  refine ⟨pairwise_append.mpr ⟨hascending.sublist hkept, pairwise_singleton _ _, ?_⟩, ?_⟩
  · intro d hd d' hd'
    rw [mem_singleton.mp hd', hid]
    exact Nat.lt_succ_of_le (hkeptBound d hd)
  · intro d hd
    obtain hd | hd := mem_append.mp hd
    · exact Nat.le_succ_of_le (hkeptBound d hd)
    · rw [mem_singleton.mp hd]
      exact Nat.le_of_eq hid

theorem Ordered.steps (h : Ordered s) (hsteps : Steps s t) : Ordered t := by
  cases hsteps with
  | flushed up hcache huploads hwritten =>
    cases hcache with
    | sent a _ _ hresults htotal _ hid =>
      refine ⟨?_, by rw [hresults]; exact .nil, by simp [hresults]⟩
      rw [htotal, hresults]
      exact int32_zero.symm
    | kept _ _ hresults htotal _ hid =>
      refine ⟨?_, by rw [hresults]; exact h.ascending, ?_⟩
      · rw [htotal, hresults, h.total]
      · rw [hresults, hid]
        exact h.bound
  | written r input up hinput hrest hcache huploads hwritten =>
    cases hcache with
    | appended _ hfailed hresults htotal _ hid =>
      obtain ⟨hascending, hbound⟩ := ordered_append (.refl _) h.ascending h.bound (agentData_id _ r)
      refine ⟨?_, by rw [hresults]; exact hascending, ?_⟩
      · rw [htotal, hresults, h.total, int32_add, length_append]
        rfl
      · rw [hresults, hid]
        exact hbound
    | sent a _ _ hresults htotal _ hid =>
      refine ⟨?_, by rw [hresults]; exact .nil, by simp [hresults]⟩
      rw [htotal, hresults]
      exact int32_zero.symm
    | replaced i _ hevicts hresults htotal _ hid =>
      obtain ⟨hascending, hbound⟩ :=
        ordered_append (eraseIdx_sublist _ i) h.ascending h.bound (agentData_id _ r)
      refine ⟨?_, by rw [hresults]; exact hascending, ?_⟩
      · have hlt : i < s.cache.results.length := hevicts.lt
        have hlength : t.cache.results.length = s.cache.results.length := by
          rw [hresults, length_append, length_eraseIdx_of_lt hlt, length_singleton]
          omega
        rw [hlength]
        exact htotal.trans h.total
      · rw [hresults, hid]
        exact hbound

theorem ordered_of_reach (h : Reach Initial step anyEvent s) : Ordered s := by
  refine h.invariant ?_ fun s e t hs _ hstep => hs.steps (steps_of_step hstep)
  rintro s ⟨bufferSize, uploader, rfl⟩
  exact ⟨int32_zero.symm, .nil, fun d hd => absurd hd not_mem_nil⟩

/-- The cache is full and a result of no cached item takes the place of the oldest one that is not
persistent. -/
def Displaced (s : System) (d : AgentData) : Prop :=
  ∃ r input, s.input = .result r :: input ∧ s.cache.maxBufferSize ≤ s.cache.totalValueNum ∧
    (r.persistent = true ∨ ∀ d' ∈ s.cache.results, d'.itemid ≠ r.itemid) ∧
    s.cache.results.find? (!·.persistent) = some d

def Superseded (t : System) (d : AgentData) : Prop :=
  ∃ d' ∈ t.cache.results, d'.itemid = d.itemid ∧ d.id < d'.id

theorem getElem_of_findIdx? {p : AgentData → Bool} (h : results.findIdx? p = some i) :
    ∃ d, results[i]? = some d ∧ p d = true ∧ results.find? p = some d := by
  obtain ⟨hlt, hp, hbefore⟩ := findIdx?_eq_some_iff_getElem.mp h
  refine ⟨results[i], List.getElem?_eq_getElem hlt, hp, ?_⟩
  exact List.find?_eq_some_iff_getElem.mpr
    ⟨hp, i, hlt, rfl, fun j hj => by simpa using hbefore j hj⟩

theorem mem_eraseIdx_or (hd : d ∈ results) : d ∈ results.eraseIdx i ∨ results[i]? = some d := by
  obtain ⟨j, hj⟩ := mem_iff_getElem?.mp hd
  by_cases hij : j = i
  · exact .inr (hij ▸ hj)
  · exact .inl (mem_eraseIdx_iff_getElem?.mpr ⟨j, hij, hj⟩)

theorem dropped (h : Ordered s) (hsteps : Steps s t) (hd : d ∈ s.cache.results)
    (hdropped : d ∉ t.cache.results) : Delivered t d ∨ Superseded t d ∨ Displaced s d := by
  cases hsteps with
  | flushed up hcache huploads hwritten =>
    cases hcache with
    | sent a hsucceeded hdata =>
      exact .inl ⟨a, huploads ▸ mem_append_right _ (mem_singleton_self a), hsucceeded, hdata ▸ hd⟩
    | kept _ _ hresults => exact absurd (hresults ▸ hd) hdropped
  | written r input up hinput hrest hcache huploads hwritten =>
    cases hcache with
    | appended _ _ hresults => exact absurd (hresults ▸ mem_append_left _ hd) hdropped
    | sent a hsucceeded hdata =>
      exact .inl ⟨a, huploads ▸ mem_append_right _ (mem_singleton_self a), hsucceeded,
        hdata ▸ mem_append_left _ hd⟩
    | replaced i hfull hevicts hresults =>
      have hat : s.cache.results[i]? = some d :=
        (mem_eraseIdx_or hd).resolve_left fun hkept => hdropped (hresults ▸ mem_append_left _ hkept)
      refine .inr ?_
      obtain ⟨-, hsame⟩ | ⟨hother, hreason⟩ := hevicts
      · obtain ⟨d', hd', hitem, -⟩ := getElem_of_findIdx? hsame
        obtain rfl : d = d' := Option.some.inj (hat.symm.trans hd')
        refine .inl ⟨_, hresults ▸ mem_append_right _ (mem_singleton_self _),
          (of_decide_eq_true hitem).symm, ?_⟩
        exact Nat.lt_succ_of_le (h.bound d hd)
      · obtain ⟨d', hd', -, hfind⟩ := getElem_of_findIdx? hother
        obtain rfl : d = d' := Option.some.inj (hat.symm.trans hd')
        refine .inr ⟨r, input, hinput, hfull, hreason.imp_right fun hnone d' hd' => ?_, hfind⟩
        exact of_decide_eq_false (findIdx?_eq_none_iff.mp hnone d' hd')

/-- An item has either persistent results or results that are not: none of the latter arrives
while one of the former is cached. -/
def uniform (s : System) : Event → Prop
  | .receive _ => ∀ r input, s.input = .result r :: input → r.persistent = false →
      ∀ d ∈ s.cache.results, d.itemid = r.itemid → d.persistent = false
  | _ => True

def persistCount (results : List AgentData) : ℕ := results.countP (·.persistent)

structure PersistKept (s : System) : Prop where
  counted : s.cache.persistValueNum = int32 (persistCount s.cache.results)
  kept : ∀ d ∈ s.written, d.persistent = true → d ∈ s.cache.results ∨ Delivered s d

theorem Delivered.mono {ups : List Upload} (huploads : t.uploads = s.uploads ++ ups)
    (h : Delivered s d) : Delivered t d := by
  obtain ⟨a, ha, h⟩ := h
  exact ⟨a, huploads ▸ mem_append_left _ ha, h⟩

theorem persistAfter_counted (h : c.persistValueNum = int32 n) :
    persistAfter c data = int32 (n + persistCount [data]) := by
  rw [persistAfter, h, int32_add, persistCount, countP_singleton]
  split_ifs with hdata
  · rw [Int.natCast_one]
  · rw [Int.natCast_zero, Int.add_zero]

theorem persistCount_eraseIdx (hat : results[i]? = some d) (hd : d.persistent = false) :
    persistCount (results.eraseIdx i) = persistCount results := by
  obtain ⟨hlt, rfl⟩ := List.getElem?_eq_some_iff.mp hat
  have hperm := (getElem_cons_eraseIdx_perm hlt).countP_eq (·.persistent)
  rw [countP_cons_of_neg (by rw [hd]; exact Bool.false_ne_true)] at hperm
  exact hperm

theorem Evicts.not_persistent (h : Evicts c data i)
    (huniform : data.persistent = false → ∀ d ∈ c.results, d.itemid = data.itemid →
      d.persistent = false) : ∃ d, c.results[i]? = some d ∧ d.persistent = false := by
  obtain ⟨hdata, hsame⟩ | ⟨hother, -⟩ := h
  · obtain ⟨d, hd, hitem, -⟩ := getElem_of_findIdx? hsame
    exact ⟨d, hd, huniform hdata d (mem_of_getElem? hd) (of_decide_eq_true hitem)⟩
  · obtain ⟨d, hd, hpersistent, -⟩ := getElem_of_findIdx? hother
    exact ⟨d, hd, by simpa using hpersistent⟩

theorem PersistKept.flushed (h : PersistKept s) (hcache : Flushed s.cache t.cache up)
    (huploads : t.uploads = s.uploads ++ up.toList) (hwritten : t.written = s.written) :
    PersistKept t := by
  cases hcache with
  | sent a hsucceeded hdata hresults _ hpersist =>
    refine ⟨by rw [hpersist, hresults]; exact int32_zero.symm, fun d hd hp => .inr ?_⟩
    obtain hcached | hdelivered := h.kept d (hwritten ▸ hd) hp
    · exact ⟨a, huploads ▸ mem_append_right _ (mem_singleton_self a), hsucceeded, hdata ▸ hcached⟩
    · exact hdelivered.mono huploads
  | kept _ _ hresults _ hpersist =>
    refine ⟨by rw [hpersist, hresults, h.counted], fun d hd hp => ?_⟩
    rw [hresults]
    exact (h.kept d (hwritten ▸ hd) hp).imp_right fun hdelivered => hdelivered.mono huploads

theorem PersistKept.written (h : PersistKept s) (hc : c.results = s.cache.results)
    (hcount : c.persistValueNum = s.cache.persistValueNum) (hcache : Written c data t.cache up)
    (huploads : t.uploads = s.uploads ++ up.toList) (hwritten : t.written = s.written ++ [data])
    (huniform : data.persistent = false → ∀ d ∈ s.cache.results, d.itemid = data.itemid →
      d.persistent = false) : PersistKept t := by
  have hcases {d : AgentData} (hd : d ∈ t.written) (hp : d.persistent = true) :
      d ∈ s.cache.results ++ [data] ∨ Delivered t d := by
    rw [hwritten] at hd
    obtain hold | hnew := mem_append.mp hd
    · exact (h.kept d hold hp).imp (mem_append_left _) (Delivered.mono huploads)
    · exact .inl (mem_append_right _ hnew)
  have hafter : persistAfter c data = int32 (persistCount (s.cache.results ++ [data])) := by
    rw [persistAfter_counted (hcount.trans h.counted), ← Int.natCast_add, persistCount,
      persistCount, persistCount, countP_append]
  rw [← hc] at huniform
  rw [← hc] at hcases hafter
  cases hcache with
  | appended _ _ hresults _ hpersist =>
    exact ⟨by rw [hpersist, hresults, hafter], fun d hd hp => hresults ▸ hcases hd hp⟩
  | sent a hsucceeded hdata hresults _ hpersist =>
    refine ⟨by rw [hpersist, hresults]; exact int32_zero.symm, fun d hd hp => .inr ?_⟩
    obtain hcached | hdelivered := hcases hd hp
    · exact ⟨a, huploads ▸ mem_append_right _ (mem_singleton_self a), hsucceeded, hdata ▸ hcached⟩
    · exact hdelivered
  | replaced i _ hevicts hresults _ hpersist =>
    obtain ⟨lost, hat, hlost⟩ := hevicts.not_persistent huniform
    refine ⟨?_, fun d hd hp => ?_⟩
    · rw [hpersist, hresults, hafter, persistCount, persistCount, countP_append, countP_append]
      exact congrArg (fun n : ℕ => int32 ↑(n + _)) (persistCount_eraseIdx hat hlost).symm
    · refine (hcases hd hp).imp_left fun hcached => ?_
      rw [hresults]
      obtain hold | hnew := mem_append.mp hcached
      · obtain hkept | hgone := mem_eraseIdx_or (i := i) hold
        · exact mem_append_left _ hkept
        · rw [Option.some.inj (hgone.symm.trans hat), hlost] at hp
          cases hp
      · exact mem_append_right _ hnew

theorem receive_of_input {message : Message} {input : List Message} (h : step s e = some t)
    (hinput : s.input = message :: input) (hrest : t.input = input) : ∃ u, e = .receive u := by
  obtain ⟨messages, -, rfl⟩ | ⟨enabled, rfl⟩ | ⟨u, _, _, he, -⟩ := step_cases h
  · have hlength := congrArg List.length hrest
    rw [length_append, hinput, length_cons] at hlength
    omega
  · rw [← hrest] at hinput
    exact absurd hinput.symm (cons_ne_self message _)
  · exact ⟨u, he⟩

theorem persistKept_of_reach (h : Reach Initial step uniform s) : PersistKept s := by
  refine h.invariant ?_ fun s e t hs hguard hstep => ?_
  · rintro s ⟨bufferSize, uploader, rfl⟩
    exact ⟨int32_zero.symm, fun d hd => absurd hd not_mem_nil⟩
  · cases steps_of_step hstep with
    | flushed up hcache huploads hwritten => exact hs.flushed hcache huploads hwritten
    | written r input up hinput hrest hcache huploads hwritten =>
      obtain ⟨u, rfl⟩ := receive_of_input hstep hinput hrest
      exact hs.written (c := { s.cache with lastDataID := s.cache.lastDataID + 1 }) rfl rfl hcache
        huploads hwritten (hguard r input hinput)

def keepsNewest (s : System) : Event → Prop
  | .receive _ => ∀ d, Displaced s d → Superseded s d
  | _ => True

structure NewestKept (s : System) : Prop where
  ordered : Ordered s
  written : ∀ d ∈ s.cache.results, d ∈ s.written
  kept : ∀ d ∈ s.written, d ∈ s.cache.results ∨ Delivered s d ∨
    ∃ d' ∈ s.written, d'.itemid = d.itemid ∧ d.id < d'.id

theorem receive_of_dropped (h : step s e = some t) (hd : d ∈ s.cache.results)
    (hdropped : d ∉ t.cache.results) : ∃ u, e = .receive u := by
  obtain ⟨messages, -, rfl⟩ | ⟨enabled, rfl⟩ | ⟨u, _, _, he, -⟩ := step_cases h
  · exact absurd hd hdropped
  · exact absurd hd hdropped
  · exact ⟨u, he⟩

theorem Steps.written_of_mem (h : Steps s t) (hs : ∀ d ∈ s.cache.results, d ∈ s.written)
    (hd : d ∈ t.cache.results) : d ∈ t.written := by
  cases h with
  | flushed up hcache huploads hwritten =>
    rw [hwritten]
    cases hcache with
    | sent a _ _ hresults => exact absurd (hresults ▸ hd) not_mem_nil
    | kept _ _ hresults => exact hs d (hresults ▸ hd)
  | written r input up hinput hrest hcache huploads hwritten =>
    rw [hwritten]
    have happend {kept : List AgentData} (hkept : kept ⊆ s.cache.results)
        (hd : d ∈ kept ++ [agentData (s.cache.lastDataID + 1) r]) :
        d ∈ s.written ++ [agentData (s.cache.lastDataID + 1) r] := by
      obtain hold | hnew := mem_append.mp hd
      · exact mem_append_left _ (hs d (hkept hold))
      · exact mem_append_right _ hnew
    cases hcache with
    | appended _ _ hresults => exact happend (List.Subset.refl _) (hresults ▸ hd)
    | sent a _ _ hresults => exact absurd (hresults ▸ hd) not_mem_nil
    | replaced i _ _ hresults => exact happend (eraseIdx_subset) (hresults ▸ hd)

theorem Steps.new_kept (h : Steps s t) (hd : d ∈ t.written) :
    d ∈ s.written ∨ d ∈ t.cache.results ∨ Delivered t d := by
  cases h with
  | flushed up hcache huploads hwritten => exact .inl (hwritten ▸ hd)
  | written r input up hinput hrest hcache huploads hwritten =>
    refine (mem_append.mp (hwritten ▸ hd)).imp_right fun hnew => ?_
    cases hcache with
    | appended _ _ hresults => exact .inl (hresults ▸ mem_append_right _ hnew)
    | sent a hsucceeded hdata =>
      exact .inr ⟨a, huploads ▸ mem_append_right _ (mem_singleton_self a), hsucceeded,
        hdata ▸ mem_append_right _ hnew⟩
    | replaced i _ _ hresults => exact .inl (hresults ▸ mem_append_right _ hnew)

theorem Steps.grows (h : Steps s t) :
    (∃ ups, t.uploads = s.uploads ++ ups) ∧ ∃ new, t.written = s.written ++ new := by
  cases h with
  | flushed up _ huploads hwritten => exact ⟨⟨_, huploads⟩, [], hwritten.trans (append_nil _).symm⟩
  | written r input up _ _ _ huploads hwritten => exact ⟨⟨_, huploads⟩, _, hwritten⟩

theorem NewestKept.step (hs : NewestKept s) (hguard : keepsNewest s e)
    (hstep : step s e = some t) : NewestKept t := by
  have hsteps := steps_of_step hstep
  obtain ⟨⟨ups, huploads⟩, new, hwritten⟩ := hsteps.grows
  have hnew {d : AgentData} (h : ∃ d' ∈ s.written, d'.itemid = d.itemid ∧ d.id < d'.id) :
      ∃ d' ∈ t.written, d'.itemid = d.itemid ∧ d.id < d'.id := by
    obtain ⟨d', hd', h⟩ := h
    exact ⟨d', hwritten ▸ mem_append_left _ hd', h⟩
  refine ⟨hs.ordered.steps hsteps, fun d hd => hsteps.written_of_mem hs.written hd, fun d hd => ?_⟩
  obtain hold | hcached | hdelivered := hsteps.new_kept hd
  · obtain hcached | hdelivered | hnewer := hs.kept d hold
    · by_cases hkept : d ∈ t.cache.results
      · exact .inl hkept
      · obtain hdelivered | hsuperseded | hdisplaced := dropped hs.ordered hsteps hcached hkept
        · exact .inr (.inl hdelivered)
        · obtain ⟨d', hd', h⟩ := hsuperseded
          exact .inr (.inr ⟨d', hsteps.written_of_mem hs.written hd', h⟩)
        · obtain ⟨u, rfl⟩ := receive_of_dropped hstep hcached hkept
          obtain ⟨d', hd', h⟩ := hguard d hdisplaced
          exact .inr (.inr (hnew ⟨d', hs.written d' hd', h⟩))
    · exact .inr (.inl (hdelivered.mono huploads))
    · exact .inr (.inr (hnew hnewer))
  · exact .inl hcached
  · exact .inr (.inl hdelivered)

theorem newestKept_of_reach (h : Reach Initial step keepsNewest s) : NewestKept s := by
  refine h.invariant ?_ fun s e t hs hguard hstep => hs.step hguard hstep
  rintro s ⟨bufferSize, uploader, rfl⟩
  exact ⟨⟨int32_zero.symm, .nil, fun d hd => absurd hd not_mem_nil⟩,
    fun d hd => absurd hd not_mem_nil, fun d hd => absurd hd not_mem_nil⟩

theorem input_of_upload (h : step s e = some t) (huploads : t.uploads = s.uploads ++ [a]) :
    ∃ message, s.input = message :: t.input := by
  have hnone (h : s.uploads = s.uploads ++ [a]) : False := by
    have hlength := congrArg List.length h
    rw [length_append, length_singleton] at hlength
    omega
  obtain ⟨messages, -, rfl⟩ | ⟨enabled, rfl⟩ | ⟨u, message, input, -, hinput, rfl⟩ := step_cases h
  · exact (hnone huploads).elim
  · exact (hnone huploads).elim
  · exact ⟨message, by rw [process_input]; exact hinput⟩

theorem failed_upload (h : Steps s t) (huploads : t.uploads = s.uploads ++ [a])
    (hfailed : a.succeeded = false) :
    a.data = t.cache.results ∧ s.cache.results <+: t.cache.results := by
  have hup {up : Option Upload} (hups : t.uploads = s.uploads ++ up.toList) : up = some a := by
    have hlist : up.toList = [a] := append_cancel_left (hups.symm.trans huploads)
    cases up with
    | none => cases hlist
    | some b => exact congrArg some (singleton_inj.mp hlist)
  cases h with
  | flushed up hcache hups _ =>
    obtain rfl := hup hups
    cases hcache with
    | sent _ hsucceeded => rw [hfailed] at hsucceeded; cases hsucceeded
    | kept _ hdata hresults =>
      rw [hresults]
      exact ⟨(hdata a rfl).2, prefix_refl _⟩
  | written r input up _ _ hcache hups _ =>
    obtain rfl := hup hups
    cases hcache with
    | appended _ hdata hresults =>
      rw [hresults]
      exact ⟨(hdata a rfl).2, prefix_append _ _⟩
    | sent _ hsucceeded => rw [hfailed] at hsucceeded; cases hsucceeded

def valueResult (itemid : ℕ) (value : String) : PluginResult where
  itemid := itemid
  value := some value
  error := none
  ts := none
  lastLogsize := none
  mtime := none
  eventSource := none
  eventID := none
  eventSeverity := none
  eventTimestamp := none
  persistent := false

def failedReply : Reply where
  marshalled := true
  upload := true
  errs := true
  canRetry := true

def threeItems : List Event :=
  [.send (.result (valueResult 1 "a")), .send (.result (valueResult 2 "b")),
    .send (.result (valueResult 3 "c")), .receive failedReply, .receive failedReply,
    .receive failedReply]

end Zabbix.ResultCache
