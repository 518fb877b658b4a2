import GherkinIndex.Proofs.Feature.Grouping

/-! What becomes of each construct.

    The machine decides about a construct long after its header, when a later header or the end of
    the file completes it. Its decision is a function of the construct alone: the node that joins
    the feature, if any, and the events on the way. `Held.fate` says it for a construct that is still
    held back, given the rows and blocks that are yet to come; a run then appends one fate after the
    other, whatever the order in which rows, blocks and constructs are completed.

        in hand             ahead                       fates
        outline o, block b  row, row, examples, ...     of o with b, the rows and the blocks
                            scenario, ...               of each construct ahead -/

namespace GherkinIndex

/-- The node a construct leaves in the feature, if any, and what is logged about it. -/
structure Fate where
  node : Option Node
  log : List Event

/-- An outline whose further blocks are complete: the accepted ones join it, and it stays if it has
    any. -/
def outlineFate (f : TagFilter) (o : Node) (blocks : List Node) : Fate :=
  let kept := o.children ++ blocks.filter (f.accepts ·.tags)
  let refused := (blocks.filter (!f.accepts ·.tags)).map fun b => .filteredOut b.kind b.text
  if kept = [] then ⟨none, refused ++ [.outlineDropped o.text]⟩
  else ⟨some (o.withChildren kept), refused⟩

/-- A block after some more rows. -/
def addRows (b : Node) (ts : List Text) : Node :=
  ts.foldl (fun b t => b.addChild (rowNode b.tags t)) b

/-- What becomes of what is held when `rows` are still added to its block and `blocks` follow. -/
def Held.fate (f : TagFilter) (rows : List Text) (blocks : List Section) : Held → Fate
  | .nothing => ⟨none, []⟩
  | .scenario s => match blocks with
    | [] => if f.accepts s.tags then ⟨some s, []⟩ else ⟨none, [.filteredOut s.kind s.text]⟩
    | _ =>
      let fate := outlineFate f { s with kind := .outline } (blocks.map (·.block s.tags))
      { fate with log := .scenarioAsOutline s.text :: fate.log }
  | .outline o b =>
    outlineFate f o ((b.map (addRows · rows)).toList ++ blocks.map (·.block o.tags))

/-- What a scenario or outline header puts in hand. -/
def Section.held (feature : TagSet) (s : Section) : Held :=
  if s.header = .scenario then .scenario (s.node .scenario true feature)
  else .outline (s.node .outline true feature) none

def Construct.fate (f : TagFilter) (feature : TagSet) (c : Construct) : Fate :=
  (c.head.held feature).fate f [] c.blocks

/-- The fates of the constructs of a file, in order. -/
def fates (f : TagFilter) : List Section → List Fate
  | [] => []
  | s :: ss => (constructs ss).map (·.fate f (s.feature none).tags)

/-- What is in hand has no number yet, and a block in hand will not get one. -/
def Held.Ready : Held → Prop
  | .nothing => True
  | .scenario s => s.Fresh
  | .outline o b => o.Fresh ∧ ∀ x ∈ b, x.numbered = false

/-! ### Nodes in the making -/

/-- A header met by the machine gives the node of its section. -/
theorem child_eq_node (kind : Kind) (numbered : Bool) (inherited : TagSet) (s : Section) :
    Draft.child kind numbered s.text inherited (.ofList s.own) = s.node kind numbered inherited := by
  rw [Draft.child, Section.node, ← TagSet.toList_union_ofList]

@[simp] theorem addRows_nil (b : Node) : addRows b [] = b := rfl

theorem addRows_eq {b : Node} {rs : List Node} (hb : b.children = Node.renumber rs)
    (ts : List Text) :
    addRows b ts = b.withChildren (Node.renumber (rs ++ ts.map (rowNode b.tags))) := by
  induction ts generalizing b rs with
  | nil => simp [← hb]
  | cons t ts ih =>
    have hrow := Node.addChild_of_fresh hb (c := rowNode b.tags t) ⟨rfl, rfl⟩
    rw [addRows, List.foldl_cons, hrow, ← addRows, ih rfl]
    simp

/-- A block that gets its rows one by one is the block of its section. -/
theorem addRows_node (outline : TagSet) (s : Section) :
    addRows (s.node .examples false outline) s.rows = s.block outline := by
  have hempty : (s.node .examples false outline).children = Node.renumber [] := rfl
  exact addRows_eq hempty s.rows

theorem Section.held_ready (feature : TagSet) (s : Section) : (s.held feature).Ready := by
  by_cases hs : s.header = .scenario
  · rw [held, if_pos hs]
    exact ⟨rfl, rfl⟩
  · rw [held, if_neg hs]
    exact ⟨⟨rfl, rfl⟩, by simp⟩

/-! ### Closing -/

/-- Closing the open block of an outline changes its children only. -/
theorem closeBlock_withChildren (f : TagFilter) (o : Node) (b : Option Node) :
    ∃ cs, (Draft.closeBlock f o b).1 = o.withChildren cs := by
  cases b with
  | none => exact ⟨o.children, (Node.withChildren_children o).symm⟩
  | some x =>
    by_cases ha : f.accepts x.tags = true
    · exact ⟨o.children ++ [o.numberedIn x], by simp [Draft.closeBlock, Node.offer, ha]; rfl⟩
    · exact ⟨o.children, by simp [Draft.closeBlock, Node.offer, ha]⟩

/-- Closing the open block of an outline first changes nothing in the end. -/
theorem outlineFate_closeBlock (f : TagFilter) (o : Node) {b : Option Node}
    (hb : ∀ x ∈ b, x.numbered = false) (blocks : List Node) :
    outlineFate f o (b.toList ++ blocks) =
      let (o', events) := Draft.closeBlock f o b
      ⟨(outlineFate f o' blocks).node, events ++ (outlineFate f o' blocks).log⟩ := by
  cases b with
  | none => rfl
  | some x =>
    have hx : x.numbered = false := hb x rfl
    by_cases ha : f.accepts x.tags = true
    · simp [Draft.closeBlock, Node.offer, ha, Node.addChild_of_unnumbered o hx, outlineFate]
    · rw [Bool.not_eq_true] at ha
      by_cases hk : o.children ++ blocks.filter (f.accepts ·.tags) = []
      · simp [Draft.closeBlock, Node.offer, ha, outlineFate, hk]
      · simp [Draft.closeBlock, Node.offer, ha, outlineFate, hk]

theorem outlineFate_fresh {f : TagFilter} {o : Node} (ho : o.Fresh) (blocks : List Node) :
    ∀ n ∈ (outlineFate f o blocks).node, n.Fresh := by
  simp only [outlineFate]
  by_cases hnone : o.children ++ blocks.filter (f.accepts ·.tags) = []
  · simp [hnone]
  · rw [if_neg hnone]
    rintro n ⟨rfl⟩
    exact ⟨ho.numbered, ho.number⟩

theorem Held.fate_fresh {f : TagFilter} {h : Held} (hh : h.Ready) :
    ∀ n ∈ (h.fate f [] []).node, n.Fresh := by
  cases h with
  | nothing => simp [fate]
  | scenario s =>
    simp only [fate]
    by_cases ha : f.accepts s.tags = true
    · rw [if_pos ha]
      rintro n ⟨rfl⟩
      exact hh
    · simp [ha]
  | outline o b => exact outlineFate_fresh hh.1 _

/-- Settling a draft attaches what becomes of what is in hand. -/
theorem Draft.settle_eq (f : TagFilter) {d : Draft} {ks : List Node}
    (hd : d.feature.children = Node.renumber ks) (hh : d.held.Ready) :
    d.settle f =
      (d.feature.withChildren (Node.renumber (ks ++ (d.held.fate f [] []).node.toList)),
        (d.held.fate f [] []).log) := by
  have hattach : ∀ n, (d.held.fate f [] []).node = some n →
      d.feature.addChild n = d.feature.withChildren (Node.renumber (ks ++ [n])) :=
    fun n hn => Node.addChild_of_fresh hd (Held.fate_fresh hh n hn)
  have hsame : d.feature = d.feature.withChildren (Node.renumber ks) := by rw [← hd]; simp
  obtain ⟨feature, held⟩ := d
  cases held with
  | nothing => simpa [settle, Held.fate] using hsame
  | scenario s =>
    by_cases ha : f.accepts s.tags = true
    · simpa [settle, Held.fate, Node.offer, ha] using hattach
    · simpa [settle, Held.fate, Node.offer, ha] using hsame
  | outline o b =>
    have hclose := outlineFate_closeBlock f o hh.2 []
    simp only [List.append_nil] at hclose
    simp only [settle, Held.fate, addRows_nil, Option.map_id', List.map_nil, List.append_nil,
      hclose] at hattach ⊢
    by_cases hk : (closeBlock f o b).1.children = []
    · simpa [outlineFate, hk, Node.hasChildren] using hsame
    · simpa [outlineFate, hk, Node.hasChildren] using hattach

end GherkinIndex
