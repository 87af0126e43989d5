import Xpl.Collections.QueueSorting

/-! Sorting a list, and putting an element into a sorted one. -/

set_option autoImplicit false

namespace Xpl.Collections
open Xpl.Library

variable {D : Type}

def xlistSort (s : Links D) (list : Option Nat) (compare : D → D → Int) : Option (Option Nat × Links D) :=
  xlistSortReal s compare (turns s) list

/-- The link at which the search stops, and the last comparison. -/
def insertSortedLoop (s : Links D) (data : D) (func : D → D → Int) : Nat → Nat → Option (Nat × Int)
  | 0, _ => none
  | fuel + 1, tmpList => do
    let node ← s.cell tmpList
    let cmp := func data node.data
    match node.next with
    | some next => if cmp > 0 then insertSortedLoop s data func fuel next else some (tmpList, cmp)
    | none => some (tmpList, cmp)

def xlistInsertSortedReal (s : Links D) (list : Option Nat) (data : D) (func : D → D → Int) :
    Option (Option Nat × Links D) :=
  match list with
  | none =>
    let (newList, s) := xlistAlloc s data
    some (some newList, s)
  | some list => do
    let (tmpList, cmp) ← insertSortedLoop s data func (turns s) list
    let (newList, s) := xlistAlloc s data
    let node ← s.cell tmpList
    if node.next = none ∧ cmp > 0 then do
      let s ← setNext s tmpList (some newList)
      let s ← setPrev s newList (some tmpList)
      some (some list, s)
    else do
      let s ← match node.prev with
        | some prev => do
          let s ← setNext s prev (some newList)
          setPrev s newList (some prev)
        | none => some s
      let s ← setNext s newList (some tmpList)
      let s ← setPrev s tmpList (some newList)
      some (some (if tmpList = list then newList else list), s)

/-- The items are those of `links`, in order, and no pair that was in order has been exchanged. -/
structure StablySorted (compare : D → D → Int) (links sorted : List (Item D)) : Prop where
  perm : sorted.Perm links
  inOrder : sorted.Pairwise fun a b => compare a.2 b.2 ≤ 0
  stable : ∀ a b, compare a.2 b.2 ≤ 0 → [a, b].Sublist links → [a, b].Sublist sorted

section Sorting

variable {s : Links D} {links : List (Item D)} {compare : D → D → Int}

theorem sortItems_stablySorted (consistent : Consistent compare) (links : List (Item D)) :
    StablySorted compare links (sortItems compare links) := by
  have trans : ∀ a b c : Item D, takesFirst compare a b = true → takesFirst compare b c = true →
      takesFirst compare a c = true := by
    intro a b c first second
    exact decide_eq_true (consistent.trans _ _ _ (of_decide_eq_true first) (of_decide_eq_true second))
  have total : ∀ a b : Item D, (takesFirst compare a b || takesFirst compare b a) = true := by
    intro a b
    rw [Bool.or_eq_true]
    exact (consistent.total a.2 b.2).imp decide_eq_true decide_eq_true
  refine ⟨sortItems_perm compare links, ?_, fun a b ordered sublist => ?_⟩
  · rw [sortItems_eq_mergeSort consistent]
    exact (List.pairwise_mergeSort trans total links).imp fun ordered => of_decide_eq_true ordered
  · rw [sortItems_eq_mergeSort consistent]
    exact List.pair_sublist_mergeSort trans total (decide_eq_true ordered) sublist

theorem xlistSort_spec (consistent : Consistent compare) (segment : Segment s none links none)
    (nodup : (addresses links).Nodup) (fresh : s.Fresh) :
    ∃ sorted t, xlistSort s (firstOr links none) compare = some (firstOr sorted none, t) ∧
      StablySorted compare links sorted ∧ Segment t none sorted none ∧ Outside s t links := by
  obtain ⟨t, call, ⟨before, after, first⟩, outside⟩ :=
    @xlistSortReal_spec _ s links none compare segment nodup fresh _ (Nat.lt_of_lt_of_le (segment.lt_turns nodup fresh) (Nat.le_refl _))
  rw [first rfl] at after
  exact ⟨_, t, call, sortItems_stablySorted consistent links, after, outside⟩

end Sorting

section Inserting

variable {s : Links D} {links front back : List (Item D)} {before : Option Nat} {func : D → D → Int} {data : D}

/-- The search passes the links that come before the new element; at the last link it stops in any case. -/
theorem insertSortedLoop_spec (segment : Segment s before links none) {list : Nat} (first : firstOr links none = some list)
    {fuel : Nat} (enough : links.length < fuel) :
    ∃ front p d back, links = front ++ (p, d) :: back ∧ insertSortedLoop s data func fuel list = some (p, func data d) ∧
      (∀ item ∈ front, 0 < func data item.2) ∧ (0 < func data d → back = []) := by
  -- the loop passes the items that compare lower and stops at the last one whatever it compares to
  induction links generalizing before list fuel with
  | nil => nomatch first
  | cons item links ih =>
    obtain ⟨p, d⟩ := item
    obtain ⟨fuel, rfl⟩ := Nat.exists_eq_succ_of_ne_zero (Nat.ne_zero_of_lt enough)
    cases first
    have cell := segment.1
    cases links with
    | nil =>
      refine ⟨[], p, d, [], rfl, ?_, (fun item member => nomatch member), fun _ => rfl⟩
      simp [insertSortedLoop, cell]
    | cons second links =>
      obtain ⟨q, e⟩ := second
      by_cases further : 0 < func data d
      · obtain ⟨front, r, f, back, split, looped, passed, last⟩ :=
          ih segment.2 rfl (Nat.lt_of_succ_lt_succ enough)
        refine ⟨(p, d) :: front, r, f, back, congrArg _ split, ?_, ?_, last⟩
        · simpa [insertSortedLoop, cell, further] using looped
        · exact List.forall_mem_cons.mpr ⟨further, passed⟩
      · refine ⟨[], p, d, (q, e) :: links, rfl, ?_, (fun item member => nomatch member), fun some => absurd some further⟩
        simp [insertSortedLoop, cell, further]

theorem firstOr_concat_append {p : Nat} {datum : D} {after : Option Nat} :
    firstOr (front ++ [(p, datum)] ++ back) after = firstOr (front ++ [(p, datum)]) none := by
  cases front <;> rfl

/-- The store after the new link has been put between the links in front and those behind. -/
theorem xlistInsertSortedReal_spec (segment : Segment s none links none) (nodup : (addresses links).Nodup) (fresh : s.Fresh) :
    ∃ front back t, links = front ++ back ∧ (∀ item ∈ front, 0 < func data item.2) ∧
      (∀ item ∈ back.head?, func data item.2 ≤ 0) ∧
      xlistInsertSortedReal s (firstOr links none) data func = some (firstOr (front ++ (s.next, data) :: back) none, t) ∧
      t.cell s.next = some { data := data, next := firstOr back none, prev := lastOr none front } ∧
      (∀ q, q ≠ s.next → t.cell q = (rejoin s front back (some s.next) (some s.next)).cell q) := by
  cases linksCase : links with
  | nil =>
    refine ⟨[], [], (xlistAlloc s data).2, rfl, List.forall_mem_nil _, (by rintro item ⟨⟩), rfl,
      ?_, fun q other => ?_⟩
    · simp [xlistAlloc]
    · simp [xlistAlloc, rejoin, other]
  | cons item rest =>
    obtain ⟨list, first⟩ : ∃ list, firstOr links none = some list := ⟨item.1, by rw [linksCase]; rfl⟩
    obtain ⟨front, p, d, back, split, looped, passed, last⟩ := @insertSortedLoop_spec _ s links none func data segment list first
      (turns s) (segment.lt_turns nodup fresh)
    rw [← linksCase]
    have cell : s.cell p = some { data := d, next := firstOr back none, prev := lastOr none front } := by
      rw [split] at segment
      exact (segment_append.mp segment).2.1
    have below : p ≠ s.next := Nat.ne_of_lt (fresh.lt (by rw [cell]; exact Option.some_ne_none _))
    by_cases behind : 0 < func data d
    · -- the new element comes after all the others
      obtain rfl := last behind
      refine ⟨links, [], ?_⟩
      simp only [first, xlistInsertSortedReal, looped, xlistAlloc, cell, behind, setNext, setPrev, Store.modify, Store.cell_alloc,
        Store.cell_set, Store.alloc_fst, below, below.symm, firstOr_nil, and_self, if_true, if_false, Option.map_some,
        some_bind]
      refine ⟨_, (List.append_nil _).symm, ?_, (by rintro item ⟨⟩), congrArg (fun head => some (head, _)) ?_, ?_,
        fun q other => ?_⟩
      · rw [split]
        exact List.forall_mem_append.mpr ⟨passed, List.forall_mem_singleton.mpr behind⟩
      · rw [firstOr_append, linksCase]
        rw [linksCase] at first
        exact first.symm
      · rw [split, lastOr_concat]
        simp
      · rw [rejoin, split, lastOr_concat]
        by_cases same : q = p
        · subst same
          simp [other, cell]
        · simp [other, same, Ne.symm same]
    · refine ⟨front, (p, d) :: back, ?_⟩
      rcases List.eq_nil_or_concat front with rfl | ⟨ahead, ⟨l, e⟩, rfl⟩
      · obtain rfl : p = list := by
          rw [split] at first
          exact Option.some.inj first
        simp only [first, xlistInsertSortedReal, looped, xlistAlloc, cell, behind, setNext, setPrev, Store.modify,
          Store.cell_alloc, Store.cell_set, Store.alloc_fst, below, below.symm, and_false, if_true, if_false, Option.map_some,
          some_bind, lastOr_nil]
        refine ⟨_, split, List.forall_mem_nil _, ?_, congrArg (fun head => some (head, _)) rfl, ?_, fun q other => ?_⟩
        · rintro item ⟨⟩
          exact Int.not_lt.mp behind
        · simp [below.symm]
        · by_cases same : q = p
          · subst same
            simp [rejoin, cell]
          · simp [rejoin, other, same, Ne.symm same]
      · rw [List.concat_eq_append] at *
        have other : l ≠ p := by
          rintro rfl
          rw [split] at nodup
          exact (nodup_split nodup).2.1 (by simp)
        have cellBefore : s.cell l = some { data := e, next := some p, prev := lastOr none ahead } := by
          rw [split, List.append_assoc] at segment
          exact (segment_append.mp segment).2.1
        have belowBefore : l ≠ s.next := Nat.ne_of_lt (fresh.lt (by rw [cellBefore]; exact Option.some_ne_none _))
        rw [split, firstOr_concat_append] at first
        have later : p ≠ list := by
          rintro rfl
          rw [split] at nodup
          exact (nodup_split nodup).2.1 (mem_of_firstOr first)
        have head : firstOr links none = some list := by rw [split, firstOr_concat_append, first]
        simp only [head, xlistInsertSortedReal, looped, xlistAlloc, cell, cellBefore, behind, setNext, setPrev, Store.modify,
          Store.cell_alloc, Store.cell_set, Store.alloc_fst, below, below.symm, belowBefore, belowBefore.symm, other.symm,
          later, and_false, if_true, if_false, Option.map_some, some_bind, lastOr_concat]
        refine ⟨_, split, passed, ?_, congrArg (fun head => some (head, _)) ?_, ?_, fun q new => ?_⟩
        · rintro item ⟨⟩
          exact Int.not_lt.mp behind
        · rw [firstOr_concat_append, first]
        · simp [below.symm]
        · rw [rejoin, lastOr_concat]
          by_cases same : q = p
          · subst same
            simp [other, cell]
          · by_cases before : q = l
            · subst before
              simp [new, cellBefore, other, other.symm]
            · simp [new, same, before, Ne.symm same, Ne.symm before]

theorem pairwise_insert (consistent : Consistent func) (sorted : (front ++ back).Pairwise fun a b => func a.2 b.2 ≤ 0)
    (passed : ∀ item ∈ front, 0 < func data item.2) (stopped : ∀ item ∈ back.head?, func data item.2 ≤ 0) (p : Nat) :
    (front ++ (p, data) :: back).Pairwise fun a b => func a.2 b.2 ≤ 0 := by
  obtain ⟨sortedFront, sortedBack, between⟩ := List.pairwise_append.mp sorted
  have behind : ∀ item ∈ back, func data item.2 ≤ 0 := by
    cases back with
    | nil => exact fun item member => nomatch member
    | cons item back =>
      have ahead := stopped item rfl
      refine List.forall_mem_cons.mpr ⟨ahead, fun other member => ?_⟩
      exact consistent.trans _ _ _ ahead (List.rel_of_pairwise_cons sortedBack member)
  have infront : ∀ item ∈ front, func item.2 data ≤ 0 := by
    intro item member
    exact (consistent.total item.2 data).resolve_right (Int.not_le.mpr (passed item member))
  refine List.pairwise_append.mpr ⟨sortedFront, List.pairwise_cons.mpr ⟨behind, sortedBack⟩, fun a memberFront b memberBack => ?_⟩
  rcases List.mem_cons.mp memberBack with rfl | member
  · exact infront a memberFront
  · exact between a memberFront b member

theorem xlistInsertSorted_spec (consistent : Consistent func) (segment : Segment s none links none)
    (nodup : (addresses links).Nodup) (fresh : s.Fresh) (sorted : links.Pairwise fun a b => func a.2 b.2 ≤ 0) (data : D) :
    ∃ more t, xlistInsertSortedReal s (firstOr links none) data func = some (firstOr more none, t) ∧
      more.Perm ((s.next, data) :: links) ∧ (more.Pairwise fun a b => func a.2 b.2 ≤ 0) ∧ Segment t none more none ∧
      (addresses more).Nodup := by
  obtain ⟨front, back, t, rfl, passed, stopped, call, here, others⟩ :=
    @xlistInsertSortedReal_spec _ s links func data segment nodup fresh
  have absent : s.next ∉ addresses (front ++ back) := by
    intro member
    exact segment.cell_ne member (fresh s.next (Nat.le_refl _))
  have perm : (front ++ (s.next, data) :: back).Perm ((s.next, data) :: (front ++ back)) := List.perm_middle
  have nodupAfter : (addresses (front ++ (s.next, data) :: back)).Nodup :=
    (addresses_perm perm).nodup_iff.mpr (List.nodup_cons.mpr ⟨absent, nodup⟩)
  exact ⟨_, t, call, perm, pairwise_insert consistent sorted passed stopped _, segment.insert nodupAfter here others, nodupAfter⟩

/-- Both calls, on a list of links chained in both directions. -/
theorem xlistSort_xlistInsertSorted (consistent : Consistent func) (segment : Segment s none links none)
    (nodup : (addresses links).Nodup) (fresh : s.Fresh) :
    (∃ sorted t, xlistSort s (firstOr links none) func = some (firstOr sorted none, t) ∧
      StablySorted func links sorted ∧ Segment t none sorted none) ∧
    ((links.Pairwise fun a b => func a.2 b.2 ≤ 0) → ∀ data,
      ∃ more t, xlistInsertSortedReal s (firstOr links none) data func = some (firstOr more none, t) ∧
        more.Perm ((s.next, data) :: links) ∧ (more.Pairwise fun a b => func a.2 b.2 ≤ 0) ∧ Segment t none more none ∧
        (addresses more).Nodup) := by
  constructor
  · obtain ⟨sorted, t, call, stably, after, -⟩ := xlistSort_spec consistent segment nodup fresh
    exact ⟨sorted, t, call, stably, after⟩
  · exact fun sorted data => xlistInsertSorted_spec consistent segment nodup fresh sorted data

theorem xlistSort_xlistInsertSorted_witness :
    let s : Links Int :=
      { cell := fun p => if p = 0 then some ⟨1, some 1, none⟩ else if p = 1 then some ⟨3, none, some 0⟩ else none, next := 2 }
    (∃ sorted t, xlistSort s (some 0) (fun a b => a - b) = some (firstOr sorted none, t) ∧
      StablySorted (fun a b => a - b) [(0, 1), (1, 3)] sorted ∧ Segment t none sorted none) ∧
    (∃ more t, xlistInsertSortedReal s (some 0) 2 (fun a b => a - b) = some (firstOr more none, t) ∧
      more.Perm [(2, 2), (0, 1), (1, 3)] ∧ (more.Pairwise fun a b => a.2 - b.2 ≤ 0) ∧ Segment t none more none ∧
      (addresses more).Nodup) := by
  intro s
  have fresh : s.Fresh := by
    intro p above
    have : 2 ≤ p := above
    simp [s, show p ≠ 0 by omega, show p ≠ 1 by omega]
  have both := @xlistSort_xlistInsertSorted Int s [(0, 1), (1, 3)] (fun a b => a - b)
    ⟨fun a b => by omega, fun a b c => by omega⟩ ⟨rfl, rfl, trivial⟩ (by decide) fresh
  exact ⟨both.1, both.2 (by decide) 2⟩

end Inserting

end Xpl.Collections
