import Zabbix.TagFilter.Tagfilter

/-!
# Tags of a maintenance

`dbconfig_maintenance.c`, as in `tagfilter.c` with two operators and without tag ranges that are
matched by their absence. A position in one of the two sorted lists is the part of the list from
there on.
-/

namespace Zabbix.Maintenance

open List Zabbix.TagFilter

inductive TagOperator
  | equal
  | like
  deriving DecidableEq

structure DcMaintenanceTag where
  op : TagOperator
  tag : List Char
  value : List Char
  deriving DecidableEq

inductive TagEvalType
  | andOr
  | or
  deriving DecidableEq

def dcMaintenanceTagValueMatch (mt : DcMaintenanceTag) (tag : Tag) : Bool :=
  match mt.op with
  | .like => (strstr tag.value mt.value).isSome
  | .equal => strcmp tag.value mt.value = .eq

def dcMaintenanceMatchTagRange (mtag : DcMaintenanceTag) (mtags : List DcMaintenanceTag)
    (etags : List Tag) : Bool × List DcMaintenanceTag × List Tag :=
  let name := mtag.tag
  let mtPos := mtags.dropWhile fun m => strcmp m.tag name = .eq
  match etags.dropWhile fun etag => strcmp etag.tag name = .lt with
  | [] => (false, mtPos, [])
  | etag :: rest =>
    if strcmp etag.tag name = .eq then
      let mtRange := mtag :: mtags.takeWhile fun m => strcmp m.tag name = .eq
      let etRange := etag :: rest.takeWhile fun etag => strcmp etag.tag name = .eq
      (mtRange.any fun m => etRange.any fun etag => dcMaintenanceTagValueMatch m etag, mtPos,
        rest.dropWhile fun etag => strcmp etag.tag name = .eq)
    else (false, mtPos, etag :: rest)

def DcMaintenanceTag.matchTag (m : DcMaintenanceTag) : MatchTag where
  op := match m.op with
    | .equal => .equal
    | .like => .like
  tag := m.tag
  value := m.value

variable {mtag : DcMaintenanceTag} {mtags : List DcMaintenanceTag} {etags : List Tag}

theorem matchSingleTag_matchTag (m : DcMaintenanceTag) (tags : Option (List Tag)) :
    matchSingleTag m.matchTag tags = (tags.getD []).any (dcMaintenanceTagValueMatch m) := by
  obtain ⟨op, tag, value⟩ := m
  cases op <;> rfl

/-- One round is that of `match_tag_range`: a range without tags meets none of the operators. -/
theorem dcMaintenanceMatchTagRange_eq (mtag : DcMaintenanceTag) (mtags : List DcMaintenanceTag)
    (etags : List Tag) :
    matchTagRange mtag.matchTag (mtags.map DcMaintenanceTag.matchTag) etags =
      let next := dcMaintenanceMatchTagRange mtag mtags etags
      (next.1, next.2.1.map DcMaintenanceTag.matchTag, next.2.2) := by
  have htag : mtag.matchTag.tag = mtag.tag := rfl
  have hrange : (fun m => decide (strcmp m.tag mtag.tag = .eq)) ∘ DcMaintenanceTag.matchTag =
      fun m : DcMaintenanceTag => decide (strcmp m.tag mtag.tag = .eq) := rfl
  rw [matchTagRange, dcMaintenanceMatchTagRange, htag, takeWhile_map, dropWhile_map,
    hrange, entityRange]
  generalize dropWhile _ etags = front
  cases front with
  | nil => simp [matchSingleTag_matchTag, Function.comp_def]
  | cons etag rest =>
    by_cases heq : strcmp etag.tag mtag.tag = .eq <;>
      simp [matchSingleTag_matchTag, Function.comp_def, heq]

theorem dcMaintenanceMatchTagRange_length (mtag : DcMaintenanceTag)
    (mtags : List DcMaintenanceTag) (etags : List Tag) :
    (dcMaintenanceMatchTagRange mtag mtags etags).2.1.length ≤ mtags.length := by
  have h := congrArg (·.2.1.length) (dcMaintenanceMatchTagRange_eq mtag mtags etags)
  have hle := matchTagRange_length mtag.matchTag (mtags.map DcMaintenanceTag.matchTag) etags
  simp only [length_map] at h hle
  exact h ▸ hle

/-- `dc_maintenance_match_tags_or` from two positions on. -/
def dcMaintenanceMatchTagsOr (mtags : List DcMaintenanceTag) (etags : List Tag) : Bool :=
  match mtags, etags with
  | [], _ | _, [] => false
  | mtag :: mtags, etags =>
    let next := dcMaintenanceMatchTagRange mtag mtags etags
    if next.1 then true else dcMaintenanceMatchTagsOr next.2.1 next.2.2
termination_by mtags.length
decreasing_by exact Nat.lt_succ_of_le (dcMaintenanceMatchTagRange_length mtag mtags etags)

def dcMaintenanceMatchTagsAndor (mtags : List DcMaintenanceTag) (etags : List Tag) : Bool :=
  match mtags, etags with
  | [], _ => true
  | _, [] => false
  | mtag :: mtags, etags =>
    let next := dcMaintenanceMatchTagRange mtag mtags etags
    if next.1 then dcMaintenanceMatchTagsAndor next.2.1 next.2.2 else false
termination_by mtags.length
decreasing_by exact Nat.lt_succ_of_le (dcMaintenanceMatchTagRange_length mtag mtags etags)

def dcMaintenanceMatchTags (tagsEvaltype : TagEvalType) (mtags : List DcMaintenanceTag)
    (tags : List Tag) : Bool :=
  if mtags = [] then true
  else if tags = [] then false
  else if tagsEvaltype = .andOr then dcMaintenanceMatchTagsAndor mtags tags
  else dcMaintenanceMatchTagsOr mtags tags

theorem matchTagRange_nil (mtag : DcMaintenanceTag) (mtags : List DcMaintenanceTag) :
    (matchTagRange mtag.matchTag (mtags.map DcMaintenanceTag.matchTag) []).1 = false ∧
      (matchTagRange mtag.matchTag (mtags.map DcMaintenanceTag.matchTag) []).2.2 = [] := by
  rw [dcMaintenanceMatchTagRange_eq]
  exact ⟨rfl, rfl⟩

theorem dcMaintenanceMatchTagsAndor_eq (mtags : List DcMaintenanceTag) (etags : List Tag) :
    dcMaintenanceMatchTagsAndor mtags etags =
      matchTagsAndor (mtags.map DcMaintenanceTag.matchTag) etags := by
  fun_induction dcMaintenanceMatchTagsAndor mtags etags with
  | case1 => rw [map_nil, matchTagsAndor]
  | case2 mtags hmtags =>
    obtain ⟨mtag, mtags, rfl⟩ := exists_cons_of_ne_nil hmtags
    rw [map_cons, matchTagsAndor]
    simp [(matchTagRange_nil mtag mtags).1]
  | case3 mtag mtags etags _ next hnext ih =>
    rw [ih, map_cons, matchTagsAndor, dcMaintenanceMatchTagRange_eq]
    exact (if_pos hnext).symm
  | case4 mtag mtags etags _ next hnext =>
    rw [map_cons, matchTagsAndor, dcMaintenanceMatchTagRange_eq]
    exact (if_neg hnext).symm

theorem matchTagsOr_nil (mtags : List DcMaintenanceTag) :
    matchTagsOr (mtags.map DcMaintenanceTag.matchTag) [] = false := by
  induction hn : mtags.length using Nat.strong_induction_on generalizing mtags with
  | _ n ih =>
    cases mtags with
    | nil => rw [map_nil, matchTagsOr]
    | cons mtag mtags =>
      have hlength := dcMaintenanceMatchTagRange_length mtag mtags []
      rw [length_cons] at hn
      rw [map_cons, matchTagsOr, dcMaintenanceMatchTagRange_eq]
      exact ih _ (by omega) _ rfl

theorem dcMaintenanceMatchTagsOr_eq (mtags : List DcMaintenanceTag) (etags : List Tag) :
    dcMaintenanceMatchTagsOr mtags etags =
      matchTagsOr (mtags.map DcMaintenanceTag.matchTag) etags := by
  fun_induction dcMaintenanceMatchTagsOr mtags etags with
  | case1 => rw [map_nil, matchTagsOr]
  | case2 mtags => exact (matchTagsOr_nil mtags).symm
  | case3 mtag mtags etags _ next hnext =>
    rw [map_cons, matchTagsOr, dcMaintenanceMatchTagRange_eq]
    exact (if_pos hnext).symm
  | case4 mtag mtags etags _ next hnext ih =>
    rw [ih, map_cons, matchTagsOr, dcMaintenanceMatchTagRange_eq]
    exact (if_neg hnext).symm

def DcMaintenanceTag.Satisfied (m : DcMaintenanceTag) (etags : List Tag) : Prop :=
  ∃ etag ∈ etags, etag.tag = m.tag ∧ match m.op with
    | .equal => etag.value = m.value
    | .like => m.value <:+: etag.value

theorem satisfied_matchTag (m : DcMaintenanceTag) (etags : List Tag) :
    Satisfied etags m.matchTag ↔ m.Satisfied etags := by
  obtain ⟨op, tag, value⟩ := m
  cases op <;> rfl

theorem sortedBy_matchTag (h : SortedBy DcMaintenanceTag.tag mtags) :
    SortedBy MatchTag.tag (mtags.map DcMaintenanceTag.matchTag) := pairwise_map.mpr h

theorem matchTagsAndor_iff_satisfied (hm : SortedBy DcMaintenanceTag.tag mtags)
    (he : SortedBy Tag.tag etags) : dcMaintenanceMatchTagsAndor mtags etags = true ↔
      ∀ mtag ∈ mtags, ∃ m ∈ mtags, m.tag = mtag.tag ∧ m.Satisfied etags := by
  rw [dcMaintenanceMatchTagsAndor_eq, matchTagsAndor_iff (sortedBy_matchTag hm) he, AndOr,
    forall_mem_map]
  simp only [mem_map, exists_exists_and_eq_and, satisfied_matchTag]
  rfl

theorem matchTagsOr_iff_satisfied (hm : SortedBy DcMaintenanceTag.tag mtags)
    (he : SortedBy Tag.tag etags) :
    dcMaintenanceMatchTagsOr mtags etags = true ↔ ∃ m ∈ mtags, m.Satisfied etags := by
  rw [dcMaintenanceMatchTagsOr_eq, matchTagsOr_iff (sortedBy_matchTag hm) he, TagFilter.Or]
  simp only [mem_map, exists_exists_and_eq_and, satisfied_matchTag]

theorem maintenance_match_tags (hm : SortedBy DcMaintenanceTag.tag mtags)
    (he : SortedBy Tag.tag etags) :
    (dcMaintenanceMatchTagsAndor mtags etags = true ↔
      ∀ mtag ∈ mtags, ∃ m ∈ mtags, m.tag = mtag.tag ∧ m.Satisfied etags) ∧
    (dcMaintenanceMatchTagsOr mtags etags = true ↔ ∃ m ∈ mtags, m.Satisfied etags) ∧
    ∀ tagsEvaltype, dcMaintenanceMatchTags tagsEvaltype mtags etags = true ↔ mtags = [] ∨
      match tagsEvaltype with
      | .andOr => ∀ mtag ∈ mtags, ∃ m ∈ mtags, m.tag = mtag.tag ∧ m.Satisfied etags
      | .or => ∃ m ∈ mtags, m.Satisfied etags := by
  have handor := matchTagsAndor_iff_satisfied hm he
  have hor := matchTagsOr_iff_satisfied hm he
  refine ⟨handor, hor, fun tagsEvaltype => ?_⟩
  unfold dcMaintenanceMatchTags
  split_ifs with hmtags htags heval
  · simp [hmtags]
  · subst htags
    obtain ⟨mtag, rest, rfl⟩ := exists_cons_of_ne_nil hmtags
    have hnone (m : DcMaintenanceTag) : ¬m.Satisfied [] := fun ⟨_, hetag, _⟩ =>
      not_mem_nil hetag
    refine iff_of_false not_false (not_or.mpr ⟨hmtags, ?_⟩)
    cases tagsEvaltype with
    | andOr =>
      intro h
      obtain ⟨m, -, -, hm⟩ := h mtag mem_cons_self
      exact hnone m hm
    | or => exact fun ⟨m, _, hm⟩ => hnone m hm
  · rw [heval, handor, or_iff_right hmtags]
  · cases tagsEvaltype with
    | andOr => exact absurd rfl heval
    | or => rw [hor, or_iff_right hmtags]

theorem maintenance_match_tags_two :
    let mtags : List DcMaintenanceTag := [⟨.equal, "a".toList, "1".toList⟩, ⟨.like, "b".toList, "2".toList⟩]
    let etags : List Tag := [⟨"a".toList, "1".toList⟩, ⟨"b".toList, "12".toList⟩]
    dcMaintenanceMatchTagsAndor mtags etags = true ↔
      ∀ mtag ∈ mtags, ∃ m ∈ mtags, m.tag = mtag.tag ∧ m.Satisfied etags :=
  (maintenance_match_tags (by simp [SortedBy]; decide) (by simp [SortedBy]; decide)).1

end Zabbix.Maintenance
