import Mathlib.Data.Char
import Mathlib.Data.List.Lex
import Mathlib.Data.List.Infix
import Zabbix.Foundation.SortedRuns

/-!
# Tag filters

`tagfilter.c`. A position in one of the two sorted lists is the part of the list from there on.
-/

namespace Zabbix.TagFilter

open List

/-- The condition operators of tag filters; `other` stands for the remaining ones. -/
inductive ConditionOperator
  | equal
  | notEqual
  | like
  | notLike
  | exist
  | notExist
  | other
  deriving DecidableEq

inductive EvalType
  | andOr
  | and
  | or
  | expression
  deriving DecidableEq

structure MatchTag where
  op : ConditionOperator
  tag : List Char
  value : List Char
  deriving DecidableEq

structure Tag where
  tag : List Char
  value : List Char
  deriving DecidableEq

def strcmp : List Char → List Char → Ordering
  | [], [] => .eq
  | [], _ :: _ => .lt
  | _ :: _, [] => .gt
  | a :: s, b :: t => (compare a b).then (strcmp s t)

def strstr (value pattern : List Char) : Option (List Char) :=
  value.tails.find? fun rest => pattern <+: rest

def zbxStrmatchCondition (value pattern : List Char) : ConditionOperator → Bool
  | .equal => strcmp value pattern = .eq
  | .notEqual => strcmp value pattern ≠ .eq
  | .like => (strstr value pattern).isSome
  | .notLike => (strstr value pattern).isNone
  | _ => false

def matchSingleTag (mtag : MatchTag) (tags : Option (List Tag)) : Bool :=
  match mtag.op with
  | .exist => tags.isSome
  | .notExist => tags.isNone
  | .equal | .like =>
    (tags.getD []).any fun etag => zbxStrmatchCondition etag.value mtag.value mtag.op
  | .notEqual | .notLike =>
    (tags.getD []).all fun etag => zbxStrmatchCondition etag.value mtag.value mtag.op
  | .other => false

def entityRange (tagName : List Char) (etags : List Tag) : Option (List Tag) × List Tag :=
  match etags.dropWhile fun etag => strcmp etag.tag tagName = .lt with
  | [] => (none, [])
  | etag :: rest =>
    if strcmp etag.tag tagName = .eq then
      (some (etag :: rest.takeWhile fun etag => strcmp etag.tag tagName = .eq),
        rest.dropWhile fun etag => strcmp etag.tag tagName = .eq)
    else (none, etag :: rest)

def matchTagRange (mtag : MatchTag) (mtags : List MatchTag) (etags : List Tag) :
    Bool × List MatchTag × List Tag :=
  let range := mtag :: mtags.takeWhile fun m => strcmp m.tag mtag.tag = .eq
  let (tags, epos) := entityRange mtag.tag etags
  (range.any fun m => matchSingleTag m tags,
    mtags.dropWhile fun m => strcmp m.tag mtag.tag = .eq, epos)

theorem matchTagRange_length (mtag : MatchTag) (mtags : List MatchTag) (etags : List Tag) :
    (matchTagRange mtag mtags etags).2.1.length ≤ mtags.length :=
  (dropWhile_sublist fun m : MatchTag => decide (strcmp m.tag mtag.tag = .eq)).length_le

def matchTagsAndor (mtags : List MatchTag) (etags : List Tag) : Bool :=
  match mtags with
  | [] => true
  | mtag :: mtags =>
    let round := matchTagRange mtag mtags etags
    if round.1 then matchTagsAndor round.2.1 round.2.2 else false
termination_by mtags.length
decreasing_by exact Nat.lt_succ_of_le (matchTagRange_length mtag mtags etags)

def matchTagsOr (mtags : List MatchTag) (etags : List Tag) : Bool :=
  match mtags with
  | [] => false
  | mtag :: mtags =>
    let round := matchTagRange mtag mtags etags
    if round.1 then true else matchTagsOr round.2.1 round.2.2
termination_by mtags.length
decreasing_by exact Nat.lt_succ_of_le (matchTagRange_length mtag mtags etags)

def zbxMatchTags (evalType : EvalType) (matchTags : List MatchTag) (entityTags : List Tag) : Bool :=
  if evalType ≠ .andOr ∧ evalType ≠ .or then false
  else if matchTags = [] then true
  else if evalType = .andOr then matchTagsAndor matchTags entityTags
  else matchTagsOr matchTags entityTags

def Satisfied (etags : List Tag) (mtag : MatchTag) : Prop :=
  match mtag.op with
  | .exist => ∃ etag ∈ etags, etag.tag = mtag.tag
  | .notExist => ∀ etag ∈ etags, etag.tag ≠ mtag.tag
  | .equal => ∃ etag ∈ etags, etag.tag = mtag.tag ∧ etag.value = mtag.value
  | .like => ∃ etag ∈ etags, etag.tag = mtag.tag ∧ mtag.value <:+: etag.value
  | .notEqual => ∀ etag ∈ etags, etag.tag = mtag.tag → etag.value ≠ mtag.value
  | .notLike => ∀ etag ∈ etags, etag.tag = mtag.tag → ¬ mtag.value <:+: etag.value
  | .other => False

def AndOr (mtags : List MatchTag) (etags : List Tag) : Prop :=
  ∀ mtag ∈ mtags, ∃ m ∈ mtags, m.tag = mtag.tag ∧ Satisfied etags m

def Or (mtags : List MatchTag) (etags : List Tag) : Prop := ∃ m ∈ mtags, Satisfied etags m

variable {mtag : MatchTag} {mtags : List MatchTag} {etags : List Tag} {name : List Char}

theorem strcmp_eq_iff (s t : List Char) : strcmp s t = .eq ↔ s = t := by
  induction s generalizing t with
  | nil => cases t <;> simp [strcmp]
  | cons a s ih =>
    cases t with
    | nil => simp [strcmp]
    | cons b t => simp [strcmp, Ordering.then_eq_eq, ih]

theorem strcmp_lt_iff (s t : List Char) : strcmp s t = .lt ↔ s < t := by
  induction s generalizing t with
  | nil => cases t <;> simp [strcmp]
  | cons a s ih =>
    cases t with
    | nil => simp [strcmp]
    | cons b t => simp [strcmp, Ordering.then_eq_lt, compare_lt_iff_lt, ih, cons_lt_cons_iff]

theorem strstr_isSome (value pattern : List Char) :
    (strstr value pattern).isSome = true ↔ pattern <:+: value := by
  rw [strstr, List.find?_isSome, infix_iff_prefix_suffix]
  simp only [mem_tails, decide_eq_true_eq]
  exact ⟨fun ⟨rest, hsuffix, hpre⟩ => ⟨rest, hpre, hsuffix⟩,
    fun ⟨rest, hpre, hsuffix⟩ => ⟨rest, hsuffix, hpre⟩⟩

theorem satisfied_congr {etags' : List Tag}
    (h : ∀ etag, etag.tag = mtag.tag → (etag ∈ etags ↔ etag ∈ etags')) :
    Satisfied etags mtag ↔ Satisfied etags' mtag := by
  unfold Satisfied
  cases mtag.op <;> grind

theorem satisfied_behind (hlt : name < mtag.tag) :
    Satisfied (etags.filter fun etag => name < etag.tag) mtag ↔ Satisfied etags mtag := by
  refine satisfied_congr fun etag htag => ?_
  rw [mem_filter, decide_eq_true_eq, htag, and_iff_left hlt]

def tagsOf (etags : List Tag) (name : List Char) : Option (List Tag) :=
  match etags.filter fun etag => strcmp etag.tag name = .eq with
  | [] => none
  | tags => some tags

theorem entityRange_eq (h : SortedBy Tag.tag etags) (name : List Char) :
    entityRange name etags = (tagsOf etags name, etags.filter fun etag => name < etag.tag) := by
  have hlt (etag : Tag) : decide (strcmp etag.tag name = .lt) = true ↔ etag.tag < name := by
    rw [decide_eq_true_eq, strcmp_lt_iff]
  have heq (etag : Tag) : decide (strcmp etag.tag name = .eq) = true ↔ etag.tag = name := by
    rw [decide_eq_true_eq, strcmp_eq_iff]
  have hge (etag : Tag) : decide (name ≤ etag.tag) = true ↔ name ≤ etag.tag := decide_eq_true_iff
  have hgt (etag : Tag) : decide (name < etag.tag) = true ↔ name < etag.tag := decide_eq_true_iff
  have hsorted := h.filter fun etag => name ≤ etag.tag
  have hrun : (etags.filter fun etag => name ≤ etag.tag).filter
      (fun etag => strcmp etag.tag name = .eq) = etags.filter fun etag => strcmp etag.tag name = .eq := by
    rw [filter_filter]
    refine filter_congr fun etag _ => ?_
    simpa [strcmp_eq_iff] using fun htag => htag.ge
  have hbehind : (etags.filter fun etag => name ≤ etag.tag).filter (fun etag => name < etag.tag) =
      etags.filter fun etag => name < etag.tag := by
    rw [filter_filter]
    refine filter_congr fun etag _ => ?_
    simpa using fun htag => htag.le
  have hall : ∀ etag ∈ etags.filter fun etag => name ≤ etag.tag, name ≤ etag.tag := fun etag he =>
    of_decide_eq_true (mem_filter.mp he).2
  rw [entityRange, h.dropWhile_lt hlt hge, tagsOf, ← hrun, ← hbehind]
  generalize (etags.filter fun etag => decide (name ≤ etag.tag)) = rest at hsorted hall
  cases rest with
  | nil => rfl
  | cons etag rest =>
    have hrest : ∀ e ∈ rest, name ≤ e.tag := fun e he => hall e (mem_cons_of_mem etag he)
    by_cases hhead : etag.tag = name
    · have hcmp := (strcmp_eq_iff etag.tag name).mpr hhead
      rw [filter_cons_of_pos (by simpa using hcmp), filter_cons_of_neg (by simp [hhead])]
      simp only [if_pos hcmp, hsorted.tail.takeWhile_eq hrest heq,
        hsorted.tail.dropWhile_eq hrest heq hgt]
    · have hcmp := mt (strcmp_eq_iff etag.tag name).mp hhead
      have hbefore : name < etag.tag := lt_of_le_of_ne (hall etag mem_cons_self) (Ne.symm hhead)
      have hnone : ((etag :: rest).filter fun e => strcmp e.tag name = .eq) = [] :=
        filter_eq_nil_iff.mpr fun e he =>
          mt (heq e).mp (hbefore.trans_le (hsorted.head_le e he)).ne'
      have hself : ((etag :: rest).filter fun e => name < e.tag) = etag :: rest :=
        filter_eq_self.mpr fun e he => decide_eq_true (hbefore.trans_le (hsorted.head_le e he))
      rw [hnone, hself]
      simp only [if_neg hcmp]

theorem matchSingleTag_iff (mtag : MatchTag) (etags : List Tag) :
    matchSingleTag mtag (tagsOf etags mtag.tag) = true ↔ Satisfied etags mtag := by
  have hmem : ∀ etag, etag ∈ (tagsOf etags mtag.tag).getD [] ↔ etag ∈ etags ∧ etag.tag = mtag.tag := by
    intro etag
    have hfilter : etag ∈ etags.filter (fun etag => strcmp etag.tag mtag.tag = .eq) ↔
        etag ∈ etags ∧ etag.tag = mtag.tag := by
      rw [mem_filter, decide_eq_true_eq, strcmp_eq_iff]
    rw [← hfilter, tagsOf]
    split
    · next hnil => rw [hnil]; rfl
    · rfl
  have hsome : (tagsOf etags mtag.tag).isSome = true ↔ ∃ etag ∈ etags, etag.tag = mtag.tag := by
    rw [tagsOf]
    split
    · next hnil =>
      refine iff_of_false Bool.false_ne_true fun ⟨etag, he, htag⟩ => ?_
      exact filter_eq_nil_iff.mp hnil etag he (decide_eq_true ((strcmp_eq_iff _ _).mpr htag))
    · next tags hcons =>
      obtain ⟨etag, he⟩ := exists_mem_of_ne_nil _ hcons
      obtain ⟨hmem, hcmp⟩ := mem_filter.mp he
      exact iff_of_true rfl ⟨etag, hmem, (strcmp_eq_iff _ _).mp (of_decide_eq_true hcmp)⟩
  unfold matchSingleTag Satisfied
  cases mtag.op with
  | exist => exact hsome
  | notExist =>
    simp only [← Option.not_isSome, Bool.not_eq_true', ← Bool.not_eq_true, hsome]
    push Not
    rfl
  | equal => simp only [zbxStrmatchCondition, any_eq_true, hmem, decide_eq_true_eq,
    strcmp_eq_iff, and_assoc]
  | like => simp only [zbxStrmatchCondition, any_eq_true, hmem, strstr_isSome, and_assoc]
  | notEqual => simp only [zbxStrmatchCondition, all_eq_true, hmem, decide_eq_true_eq, ne_eq,
    strcmp_eq_iff, and_imp]
  | notLike =>
    simp only [zbxStrmatchCondition, all_eq_true, hmem, ← strstr_isSome, and_imp,
      Option.isNone_iff_eq_none, Option.not_isSome_iff_eq_none]
  | other => exact iff_of_false Bool.false_ne_true id

theorem matchTagRange_spec (hm : SortedBy MatchTag.tag (mtag :: mtags))
    (he : SortedBy Tag.tag etags) :
    ∃ result, matchTagRange mtag mtags etags =
        (result, (mtag :: mtags).filter fun m => mtag.tag < m.tag,
          etags.filter fun etag => mtag.tag < etag.tag) ∧
      (result = true ↔ ∃ m ∈ mtag :: mtags, m.tag = mtag.tag ∧ Satisfied etags m) := by
  have hge : ∀ m ∈ mtags, mtag.tag ≤ m.tag := fun m hmem => hm.head_le m (mem_cons_of_mem mtag hmem)
  have heq (m : MatchTag) : decide (strcmp m.tag mtag.tag = .eq) = true ↔ m.tag = mtag.tag := by
    rw [decide_eq_true_eq, strcmp_eq_iff]
  have hgt (m : MatchTag) : decide (mtag.tag < m.tag) = true ↔ mtag.tag < m.tag :=
    decide_eq_true_iff
  refine ⟨(mtag :: mtags.filter fun m => strcmp m.tag mtag.tag = .eq).any fun m =>
    matchSingleTag m (tagsOf etags mtag.tag), ?_, ?_⟩
  · rw [matchTagRange, entityRange_eq he, filter_cons_of_neg (by simp)]
    simp only [hm.tail.takeWhile_eq hge heq, hm.tail.dropWhile_eq hge heq hgt]
  · have hrange : (mtag :: mtags.filter fun m => strcmp m.tag mtag.tag = .eq) =
        (mtag :: mtags).filter fun m => strcmp m.tag mtag.tag = .eq :=
      (filter_cons_of_pos (by simp [strcmp_eq_iff])).symm
    rw [hrange, any_eq_true]
    simp only [mem_filter, decide_eq_true_eq, strcmp_eq_iff, and_assoc]
    refine exists_congr fun m => and_congr_right fun _ => and_congr_right fun htag => ?_
    rw [← htag, matchSingleTag_iff]

theorem exists_behind (mtags : List MatchTag) (p : MatchTag → Prop) :
    (∃ m ∈ mtags.filter fun m => name < m.tag,
        p m ∧ Satisfied (etags.filter fun etag => name < etag.tag) m) ↔
      ∃ m ∈ mtags, name < m.tag ∧ p m ∧ Satisfied etags m := by
  simp only [mem_filter, decide_eq_true_eq, and_assoc]
  exact exists_congr fun m => and_congr_right fun _ => and_congr_right fun hlt =>
    and_congr_right fun _ => satisfied_behind hlt

theorem length_behind_lt (mtag : MatchTag) (mtags : List MatchTag) :
    ((mtag :: mtags).filter fun m => mtag.tag < m.tag).length < (mtag :: mtags).length := by
  rw [filter_cons_of_neg (by simp)]
  exact Nat.lt_succ_of_le (length_filter_le _ _)

theorem matchTagsAndor_iff (hm : SortedBy MatchTag.tag mtags) (he : SortedBy Tag.tag etags) :
    matchTagsAndor mtags etags = true ↔ AndOr mtags etags := by
  induction hn : mtags.length using Nat.strong_induction_on generalizing mtags etags with
  | _ n ih =>
    subst hn
    cases mtags with
    | nil =>
      rw [matchTagsAndor]
      exact iff_of_true rfl fun m hmem => absurd hmem not_mem_nil
    | cons mtag mtags =>
      obtain ⟨result, hround, hresult⟩ := matchTagRange_spec hm he
      have hrest := ih _ (length_behind_lt mtag mtags) (hm.filter _) (he.filter fun etag => mtag.tag < etag.tag) rfl
      rw [matchTagsAndor, hround]
      simp only
      split_ifs with hres
      · rw [hrest]
        constructor
        · intro h m hmem
          obtain heq | hlt := (hm.head_le m hmem).eq_or_lt
          · rw [← heq]
            exact hresult.mp hres
          · obtain ⟨m', hm', -, htag, hsat⟩ := (exists_behind _ _).mp
              (h m (mem_filter.mpr ⟨hmem, decide_eq_true hlt⟩))
            exact ⟨m', hm', htag, hsat⟩
        · intro h m hmem
          obtain ⟨hmem, hlt⟩ := mem_filter.mp hmem
          obtain ⟨m', hm', htag, hsat⟩ := h m hmem
          exact (exists_behind _ _).mpr
            ⟨m', hm', htag ▸ of_decide_eq_true hlt, htag, hsat⟩
      · exact iff_of_false id fun h => hres (hresult.mpr (h mtag mem_cons_self))

theorem matchTagsOr_iff (hm : SortedBy MatchTag.tag mtags) (he : SortedBy Tag.tag etags) :
    matchTagsOr mtags etags = true ↔ Or mtags etags := by
  induction hn : mtags.length using Nat.strong_induction_on generalizing mtags etags with
  | _ n ih =>
    subst hn
    cases mtags with
    | nil =>
      rw [matchTagsOr]
      exact iff_of_false Bool.false_ne_true fun ⟨m, hmem, _⟩ => absurd hmem not_mem_nil
    | cons mtag mtags =>
      obtain ⟨result, hround, hresult⟩ := matchTagRange_spec hm he
      have hrest := ih _ (length_behind_lt mtag mtags) (hm.filter _) (he.filter fun etag => mtag.tag < etag.tag) rfl
      rw [matchTagsOr, hround]
      simp only
      split_ifs with hres
      · obtain ⟨m, hmem, -, hsat⟩ := hresult.mp hres
        exact iff_of_true rfl ⟨m, hmem, hsat⟩
      · rw [hrest]
        constructor
        · intro ⟨m, hmem, hsat⟩
          obtain ⟨m', hm', -, -, hsat'⟩ := (exists_behind _ fun _ => True).mp ⟨m, hmem, trivial, hsat⟩
          exact ⟨m', hm', hsat'⟩
        · intro ⟨m, hmem, hsat⟩
          obtain heq | hlt := (hm.head_le m hmem).eq_or_lt
          · exact absurd (hresult.mpr ⟨m, hmem, heq.symm, hsat⟩) hres
          · obtain ⟨m', hm', -, hsat'⟩ :=
              (exists_behind _ fun _ => True).mpr ⟨m, hmem, hlt, trivial, hsat⟩
            exact ⟨m', hm', hsat'⟩

/-- A tag filter matches as its tags say, whatever names are repeated in the two sorted lists. -/
theorem zbx_match_tags_agrees (mtags : List MatchTag) (etags : List Tag)
    (hm : SortedBy MatchTag.tag mtags) (he : SortedBy Tag.tag etags) :
    (zbxMatchTags .andOr mtags etags = true ↔ mtags = [] ∨ AndOr mtags etags) ∧
      (zbxMatchTags .or mtags etags = true ↔ mtags = [] ∨ Or mtags etags) := by
  unfold zbxMatchTags
  by_cases hnil : mtags = []
  · simp [hnil]
  · simp [hnil, matchTagsAndor_iff hm he, matchTagsOr_iff hm he]

/-- A name that only the filter has, between names that both lists have. -/
theorem zbx_match_tags_agrees_absentName :
    let mtags : List MatchTag := [⟨.exist, ['a'], []⟩, ⟨.notLike, ['b'], ['x']⟩,
      ⟨.equal, ['c'], ['1']⟩, ⟨.equal, ['c'], ['2']⟩]
    let etags : List Tag := [⟨['a'], ['x']⟩, ⟨['c'], ['2']⟩, ⟨['c'], ['3']⟩]
    (zbxMatchTags .andOr mtags etags = true ↔ mtags = [] ∨ AndOr mtags etags) ∧
      (zbxMatchTags .or mtags etags = true ↔ mtags = [] ∨ Or mtags etags) :=
  zbx_match_tags_agrees _ _ (by simp [SortedBy]; decide) (by simp [SortedBy]; decide)

end Zabbix.TagFilter
