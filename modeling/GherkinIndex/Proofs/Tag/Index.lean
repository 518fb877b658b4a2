import Mathlib.Data.List.Pairwise
import GherkinIndex.Proofs.Tag.Set
import GherkinIndex.Proofs.Text.Order
import GherkinIndex.TagIndex

/-! What the tag index lists.

    Grouping adds items under their tags, and the tags are kept in order. What is found under a tag
    is then all that was added under it, in the order in which it was added. So the index can be read
    off the features: under each tag one entry for each feature that uses it, and in it the scenarios
    and outlines that carry it.

        add x to b, y to a, z to b        a  y
                                          b  x z -/

namespace GherkinIndex

namespace Groups
variable {α : Type}

/-- The tags stand in increasing order. -/
def Increasing (g : Groups α) : Prop := g.Pairwise fun x y => Text.precedes x.1 y.1 = true

theorem increasing_nil : Increasing ([] : Groups α) := List.Pairwise.nil

/-- Adding under a tag brings in no other tag. -/
theorem fst_of_mem_add {t : Tag} {xs : List α} {g : Groups α} {e : Tag × List α}
    (he : e ∈ Groups.add t xs g) : e.1 = t ∨ ∃ e' ∈ g, e.1 = e'.1 := by
  induction g with
  | nil => exact .inl (by simp_all [add])
  | cons x rest ih =>
    obtain ⟨u, ys⟩ := x
    rw [add] at he
    by_cases htu : t = u
    · rw [if_pos htu] at he
      rcases List.mem_cons.1 he with rfl | hrest
      · exact .inl htu.symm
      · exact .inr ⟨e, List.mem_cons_of_mem _ hrest, rfl⟩
    rw [if_neg htu] at he
    by_cases hbefore : Text.precedes t u = true
    · rw [if_pos hbefore] at he
      rcases List.mem_cons.1 he with rfl | hrest
      · exact .inl rfl
      · exact .inr ⟨e, hrest, rfl⟩
    · rw [if_neg hbefore] at he
      rcases List.mem_cons.1 he with rfl | hrest
      · exact .inr ⟨_, List.mem_cons_self, rfl⟩
      · rcases ih hrest with ht | ⟨e', he', hkey⟩
        · exact .inl ht
        · exact .inr ⟨e', List.mem_cons_of_mem _ he', hkey⟩

theorem increasing_add {g : Groups α} (hg : Increasing g) (t : Tag) (xs : List α) :
    Increasing (Groups.add t xs g) := by
  induction g with
  | nil => exact List.pairwise_singleton _ _
  | cons x rest ih =>
    obtain ⟨u, ys⟩ := x
    obtain ⟨hhead, hrest⟩ := List.pairwise_cons.1 hg
    rw [add]
    by_cases htu : t = u
    · rw [if_pos htu]
      exact List.pairwise_cons.2 ⟨hhead, hrest⟩
    rw [if_neg htu]
    by_cases hbefore : Text.precedes t u = true
    · rw [if_pos hbefore]
      refine List.pairwise_cons.2 ⟨fun e he => ?_, hg⟩
      rcases List.mem_cons.1 he with rfl | he
      · exact hbefore
      · exact Text.precedes_trans hbefore (hhead e he)
    · rw [if_neg hbefore]
      have hafter : Text.precedes u t = true :=
        ((Text.precedes_or_eq_or_precedes t u).resolve_left hbefore).resolve_left htu
      refine List.pairwise_cons.2 ⟨fun e he => ?_, ih hrest⟩
      rcases fst_of_mem_add he with ht | ⟨e', he', hkey⟩
      · rw [ht]
        exact hafter
      · rw [hkey]
        exact hhead e' he'

/-- No group of a tag stands behind a greater one. -/
theorem lookup_eq_none {t u : Tag} {ys : List α} {rest : Groups α}
    (hg : Increasing ((u, ys) :: rest)) (htu : Text.precedes t u = true) :
    List.lookup t ((u, ys) :: rest) = none := by
  rw [List.lookup_eq_none_iff]
  intro e he
  have hbefore : Text.precedes t e.1 = true := by
    rcases List.mem_cons.1 he with rfl | he
    · exact htu
    · exact Text.precedes_trans htu ((List.pairwise_cons.1 hg).1 e he)
  rw [bne_iff_ne]
  rintro rfl
  rw [Text.precedes_iff_lt] at hbefore
  exact lt_irrefl _ hbefore

theorem lookup_cons (t u : Tag) (xs : List α) (g : Groups α) :
    List.lookup u ((t, xs) :: g) = if u = t then some xs else g.lookup u := by
  rw [List.lookup_cons]
  by_cases h : u = t
  · simp [h]
  · rw [beq_false_of_ne h, if_neg h]

/-- Each tag has one group. -/
theorem Increasing.nodup {g : Groups α} (hg : Increasing g) : (g.map (·.1)).Nodup := by
  rw [List.Nodup, List.pairwise_map]
  refine hg.imp fun hlt heq => ?_
  rw [heq, Text.precedes_iff_lt] at hlt
  exact lt_irrefl _ hlt

/-- A group is found under its tag. -/
theorem map_find?_fst {β : Type} (g : Groups α) (t : Tag) (f : List α → β) :
    (g.find? (·.1 == t)).map (fun e => f e.2) = (g.lookup t).map f := by
  induction g with
  | nil => rfl
  | cons e g ih =>
    obtain ⟨u, xs⟩ := e
    rw [lookup_cons]
    by_cases h : t = u
    · rw [List.find?_cons_of_pos (by simp [h]), if_pos h]
      rfl
    · rw [List.find?_cons_of_neg (by simp [Ne.symm h]), if_neg h, ih]

/-- What is added under a tag is found there, behind what was there before. -/
theorem lookup_add {g : Groups α} (hg : Increasing g) (t : Tag) (xs : List α) (u : Tag) :
    (Groups.add t xs g).lookup u =
      (g.lookup u).merge (· ++ ·) (if u = t then some xs else none) := by
  induction g with
  | nil => rw [add, lookup_cons, List.lookup_nil, Option.merge_none_left]
  | cons x rest ih =>
    obtain ⟨v, ys⟩ := x
    have hrest := ih (List.pairwise_cons.1 hg).2
    rw [add]
    by_cases htv : t = v
    · rw [if_pos htv]
      subst htv
      rw [lookup_cons, lookup_cons]
      by_cases hut : u = t <;> simp [hut]
    rw [if_neg htv]
    by_cases hbefore : Text.precedes t v = true
    · rw [if_pos hbefore, lookup_cons]
      by_cases hut : u = t
      · rw [hut, lookup_eq_none hg hbefore]
        simp
      · simp [hut]
    · rw [if_neg hbefore, lookup_cons, lookup_cons]
      by_cases huv : u = v
      · have hut : ¬ u = t := fun h => htv (h.symm.trans huv)
        simp [huv ▸ hut, huv]
      · rw [if_neg huv, if_neg huv, hrest]

/-- Adding the items of some things under their tags, each tag at most once. -/
theorem lookup_foldl_add {β : Type} (key : β → Tag) (items : β → List α) {bs : List β}
    (hbs : (bs.map key).Nodup) {g : Groups α} (hg : Increasing g) (u : Tag) :
    Increasing (bs.foldl (fun g b => Groups.add (key b) (items b) g) g) ∧
      (bs.foldl (fun g b => Groups.add (key b) (items b) g) g).lookup u =
        (g.lookup u).merge (· ++ ·) ((bs.find? (key · == u)).map items) := by
  induction bs generalizing g with
  | nil => exact ⟨hg, by simp⟩
  | cons b bs ih =>
    obtain ⟨hb, hrest⟩ := List.nodup_cons.1 hbs
    obtain ⟨hinc, hlookup⟩ := ih hrest (increasing_add hg (key b) (items b))
    refine ⟨hinc, ?_⟩
    rw [List.foldl_cons, hlookup, lookup_add hg]
    by_cases hu : u = key b
    · -- no other thing has this tag
      have hnone : bs.find? (key · == u) = none := by
        rw [List.find?_eq_none]
        intro c hc hkey
        exact hb (List.mem_map.2 ⟨c, hc, (beq_iff_eq.1 hkey).trans hu⟩)
      rw [hnone, List.find?_cons_of_pos (by simp [hu])]
      simp [hu]
    · rw [List.find?_cons_of_neg (by simp [Ne.symm hu])]
      simp [hu]

/-- Adding the same items under each tag of a set. -/
theorem lookup_foldl_tags {s : TagSet} (hs : s.toList.Nodup) (xs : List α) {g : Groups α}
    (hg : Increasing g) (u : Tag) :
    Increasing (s.toList.foldl (fun g t => Groups.add t xs g) g) ∧
      (s.toList.foldl (fun g t => Groups.add t xs g) g).lookup u =
        (g.lookup u).merge (· ++ ·) (if s.contains u then some xs else none) := by
  obtain ⟨hinc, hlookup⟩ := lookup_foldl_add id (fun _ => xs) (by simpa using hs) hg u
  refine ⟨hinc, hlookup.trans ?_⟩
  congr 1
  cases hfind : s.toList.find? (id · == u) with
  | none =>
    have hno : s.contains u = false := by
      rw [List.find?_eq_none] at hfind
      simpa [TagSet.contains] using fun h => hfind u h
    simp [hno]
  | some t =>
    have ht := List.find?_some hfind
    obtain rfl : t = u := beq_iff_eq.1 ht
    have hmem : s.contains t = true := (s.contains_iff t).2 (List.mem_of_find?_eq_some hfind)
    simp [hmem]

/-- A group of items, if there are any. -/
def ofItems? (xs : List α) : Option (List α) := if xs = [] then none else some xs

theorem merge_ofItems? (xs ys : List α) :
    (ofItems? xs).merge (· ++ ·) (ofItems? ys) = ofItems? (xs ++ ys) := by
  by_cases hx : xs = []
  · simp [ofItems?, hx]
  · by_cases hy : ys = [] <;> simp [ofItems?, hx, hy]

end Groups

/-! ### One feature -/

namespace Node

theorem mem_foldl_union {bs : List Node} {s : TagSet} {t : Tag} :
    t ∈ (bs.foldl (fun s b => s.union b.tags) s).toList ↔
      t ∈ s.toList ∨ ∃ b ∈ bs, t ∈ b.tags.toList := by
  induction bs generalizing s with
  | nil => simp
  | cons b bs ih =>
    rw [List.foldl_cons, ih, TagSet.union, TagSet.mem_extend, or_assoc, List.exists_mem_cons_iff]

theorem nodup_foldl_union (bs : List Node) {s : TagSet} (hs : s.toList.Nodup) :
    (bs.foldl (fun s b => s.union b.tags) s).toList.Nodup := by
  induction bs generalizing s with
  | nil => exact hs
  | cons b bs ih => exact ih (TagSet.nodup_extend _ hs)

/-- An outline has its own tags and those of its blocks. -/
theorem mem_effectiveTags {n : Node} {t : Tag} :
    t ∈ n.effectiveTags.toList ↔
      t ∈ n.tags.toList ∨ n.kind = .outline ∧ ∃ b ∈ n.children, t ∈ b.tags.toList := by
  rw [effectiveTags]
  by_cases hk : n.kind = .outline
  · rw [if_pos hk, mem_foldl_union]
    simp [hk]
  · simp [hk]

theorem nodup_effectiveTags {n : Node} (h : n.tags.toList.Nodup) :
    n.effectiveTags.toList.Nodup := by
  by_cases hk : n.kind = .outline
  · rw [effectiveTags, if_pos hk]
    exact nodup_foldl_union n.children h
  · rwa [effectiveTags, if_neg hk]

/-- Whether a tag stands on a feature or on something in it. -/
def uses (n : Node) (t : Tag) : Bool :=
  n.tags.contains t || n.children.any (·.effectiveTags.contains t)

/-- The scenarios and outlines of a feature that carry a tag, in order. -/
def carriers (n : Node) (t : Tag) : List TaggedScenario :=
  (n.children.filter (·.effectiveTags.contains t)).map tagged

/-- The entry of a feature under a tag that it uses. -/
def listing? (n : Node) (t : Tag) : Option TaggedFeature :=
  if n.uses t then some ⟨n.text, n.path, n.carriers t⟩ else none

/-- A feature has an entry that lists what carries the tag, and nothing else. -/
theorem exists_listing?_iff {n : Node} {t : Tag} {s : TaggedScenario} :
    (∃ e, n.listing? t = some e ∧ s ∈ e.scenarios) ↔
      ∃ c ∈ n.children, t ∈ c.effectiveTags.toList ∧ c.tagged = s := by
  have hcarriers : s ∈ n.carriers t ↔
      ∃ c ∈ n.children, t ∈ c.effectiveTags.toList ∧ c.tagged = s := by
    simp [carriers, TagSet.contains_iff, and_assoc]
  rw [← hcarriers]
  constructor
  · rintro ⟨e, he, hs⟩
    rw [listing?, Option.ite_none_right_eq_some, Option.some.injEq] at he
    obtain ⟨-, rfl⟩ := he
    exact hs
  · intro hs
    obtain ⟨c, hc, ht, -⟩ := hcarriers.1 hs
    have huses : n.uses t = true := by
      rw [uses, Bool.or_eq_true, List.any_eq_true]
      exact .inr ⟨c, hc, (TagSet.contains_iff _ t).2 ht⟩
    exact ⟨_, if_pos huses, hs⟩

/-- No tag stands twice on a feature or on something in it. -/
structure TagsNodup (n : Node) : Prop where
  own : n.tags.toList.Nodup
  children : ∀ c ∈ n.children, c.effectiveTags.toList.Nodup

/-- Children are put behind what is grouped already. -/
theorem lookup_foldl_children {cs : List Node} (hcs : ∀ c ∈ cs, c.effectiveTags.toList.Nodup)
    {g : Groups TaggedScenario} (hg : g.Increasing) (t : Tag) :
    let after := cs.foldl
      (fun g c => c.effectiveTags.toList.foldl (fun g t => Groups.add t [c.tagged] g) g) g
    Groups.Increasing after ∧ after.lookup t =
      (g.lookup t).merge (· ++ ·)
        (Groups.ofItems? ((cs.filter (·.effectiveTags.contains t)).map tagged)) := by
  induction cs generalizing g with
  | nil => simpa [Groups.ofItems?] using hg
  | cons c cs ih =>
    obtain ⟨hinc, hlookup⟩ :=
      Groups.lookup_foldl_tags (hcs c List.mem_cons_self) [c.tagged] hg t
    obtain ⟨hinc', hlookup'⟩ := ih (fun d hd => hcs d (List.mem_cons_of_mem _ hd)) hinc
    refine ⟨hinc', hlookup'.trans ?_⟩
    have hc : (if c.effectiveTags.contains t then some [c.tagged] else none) =
        Groups.ofItems? (([c].filter (·.effectiveTags.contains t)).map tagged) := by
      by_cases h : c.effectiveTags.contains t = true <;> simp [Groups.ofItems?, h]
    rw [hlookup, hc, @Std.Associative.assoc _ (Option.merge _), Groups.merge_ofItems?,
      ← List.map_append, ← List.filter_append, List.singleton_append]

theorem scenariosByTag_spec {n : Node} (hn : n.TagsNodup) (t : Tag) :
    n.scenariosByTag.Increasing ∧
      n.scenariosByTag.lookup t = if n.uses t then some (n.carriers t) else none := by
  obtain ⟨hinc, hlookup⟩ := Groups.lookup_foldl_tags hn.own [] Groups.increasing_nil t
  obtain ⟨hinc', hlookup'⟩ := lookup_foldl_children hn.children hinc t
  refine ⟨hinc', hlookup'.trans ?_⟩
  have hnone : n.carriers t = [] ↔ n.children.any (·.effectiveTags.contains t) = false := by
    simp [carriers]
  rw [hlookup, ← carriers, uses, Groups.ofItems?]
  by_cases hown : n.tags.contains t = true
  · by_cases hc : n.carriers t = [] <;> simp [hown, hc]
  · by_cases hc : n.carriers t = []
    · simp [hown, hc, hnone.1 hc]
    · rw [hnone, Bool.not_eq_false] at hc
      simp [hown, hc, hnone]

end Node

/-! ### Many features -/

namespace TagIndex

/-- The entries under a tag. -/
def under (index : TagIndex) (t : Tag) : List TaggedFeature := (index.features? t).getD []

/-- A feature gets an entry under each tag it uses. -/
theorem addFeature_spec {index : TagIndex} (hi : index.groups.Increasing) {n : Node}
    (hn : n.TagsNodup) (t : Tag) :
    (index.addFeature n).groups.Increasing ∧
      (index.addFeature n).features? t =
        (index.features? t).merge (· ++ ·) (Groups.ofItems? (n.listing? t).toList) := by
  obtain ⟨hinc, hlookup⟩ := n.scenariosByTag_spec hn t
  obtain ⟨hinc', hlookup'⟩ :=
    Groups.lookup_foldl_add (fun e : Tag × List TaggedScenario => e.1)
      (fun e => [(⟨n.text, n.path, e.2⟩ : TaggedFeature)]) hinc.nodup hi t
  refine ⟨hinc', hlookup'.trans ?_⟩
  rw [Groups.map_find?_fst n.scenariosByTag t fun scenarios =>
    [(⟨n.text, n.path, scenarios⟩ : TaggedFeature)], hlookup, Node.listing?]
  by_cases hu : n.uses t = true <;> simp [hu, Groups.ofItems?, features?]

theorem foldl_addFeature_spec {index : TagIndex} (hi : index.groups.Increasing) {fs : List Node}
    (hfs : ∀ n ∈ fs, n.TagsNodup) (t : Tag) :
    (fs.foldl addFeature index).groups.Increasing ∧
      (fs.foldl addFeature index).features? t =
        (index.features? t).merge (· ++ ·) (Groups.ofItems? (fs.filterMap (·.listing? t))) := by
  induction fs generalizing index with
  | nil => exact ⟨hi, by simp [Groups.ofItems?]⟩
  | cons n fs ih =>
    obtain ⟨hinc, hadd⟩ := addFeature_spec hi (hfs n List.mem_cons_self) t
    obtain ⟨hinc', hrest⟩ := ih hinc fun m hm => hfs m (List.mem_cons_of_mem _ hm)
    refine ⟨hinc', hrest.trans ?_⟩
    rw [hadd, @Std.Associative.assoc _ (Option.merge _), Groups.merge_ofItems?]
    cases h : n.listing? t <;> simp [h]

/-- Under each tag there is one entry for each feature that uses it, in order. -/
theorem features?_build {fs : List Node} (hfs : ∀ n ∈ fs, n.TagsNodup) (t : Tag) :
    (build fs).features? t = Groups.ofItems? (fs.filterMap (·.listing? t)) := by
  have hempty : (TagIndex.mk []).groups.Increasing := Groups.increasing_nil
  rw [build, (foldl_addFeature_spec hempty hfs t).2]
  simp [features?]

/-- What an index lists under a tag in the entry of a feature. -/
def Lists (index : TagIndex) (n : Node) (t : Tag) (s : TaggedScenario) : Prop :=
  ∃ e ∈ index.under t, n.listing? t = some e ∧ s ∈ e.scenarios

theorem under_build {fs : List Node} (hfs : ∀ n ∈ fs, n.TagsNodup) (t : Tag) :
    (build fs).under t = fs.filterMap (·.listing? t) := by
  rw [under, features?_build hfs, Groups.ofItems?]
  cases fs.filterMap (·.listing? t) with
  | nil => rfl
  | cons e es => rfl

/-- Every carrier of a tag is listed under it. -/
theorem lists_build {fs : List Node} (hfs : ∀ n ∈ fs, n.TagsNodup) {n c : Node} (hn : n ∈ fs)
    (hc : c ∈ n.children) {t : Tag} (ht : t ∈ c.effectiveTags.toList) :
    (build fs).Lists n t c.tagged := by
  obtain ⟨e, he, hs⟩ := Node.exists_listing?_iff.2 ⟨c, hc, ht, rfl⟩
  rw [Lists, under_build hfs]
  exact ⟨e, List.mem_filterMap.2 ⟨n, hn, he⟩, he, hs⟩

/-- The one feature of an index has its only entries. -/
theorem scenarios_build_singleton {n : Node} (hn : n.TagsNodup) (t : Tag) :
    ((build [n]).under t).flatMap (·.scenarios) = n.carriers t := by
  have hnone : n.uses t ≠ true → n.carriers t = [] := by
    simp +contextual [Node.uses, Node.carriers]
  rw [under_build (by simpa using hn)]
  by_cases hu : n.uses t = true
  · simp [Node.listing?, hu]
  · simp [Node.listing?, hu, hnone hu]

end TagIndex
end GherkinIndex
