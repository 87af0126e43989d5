import Mathlib.Data.List.Chain
import Mathlib.Data.List.DropRight
import Mathlib.Data.List.Sort

/-! Merge sort that cuts a list at half of its length, rounded down. For a total preorder it
is the stable sort. -/

set_option autoImplicit false

namespace Xpl.Library

variable {α : Type} {le : α → α → Bool}

def halvingSort (le : α → α → Bool) (items : List α) : List α :=
  if items.length < 2 then items
  else
    List.merge (halvingSort le (items.take (items.length / 2))) (halvingSort le (items.drop (items.length / 2))) le
termination_by items.length
decreasing_by
  · rw [List.length_take]
    omega
  · rw [List.length_drop]
    omega

theorem halvingSort_perm (le : α → α → Bool) (items : List α) : (halvingSort le items).Perm items := by
  fun_induction halvingSort le items with
  | case1 items short => exact List.Perm.refl _
  | case2 items long ihLeft ihRight =>
    refine (List.merge_perm_append _).trans ?_
    conv_rhs => rw [← List.take_append_drop (items.length / 2) items]
    exact ihLeft.append ihRight

theorem halvingSort_pairwise (trans : ∀ a b c, le a b = true → le b c = true → le a c = true)
    (total : ∀ a b, (le a b || le b a) = true) (items : List α) :
    (halvingSort le items).Pairwise fun a b => le a b = true := by
  fun_induction halvingSort le items with
  | case1 items short =>
    match items, short with
    | [], _ => exact List.Pairwise.nil
    | [_], _ => exact List.pairwise_singleton _ _
  | case2 items long ihLeft ihRight => exact List.pairwise_merge trans total _ _ ihLeft ihRight

theorem halvingSort_zipIdx (items : List α) (start : Nat) :
    (halvingSort (List.zipIdxLE le) (items.zipIdx start)).map Prod.fst = halvingSort le items := by
  -- the positions of the first half are the smaller ones, so the pairs are merged as their items are
  induction count : items.length using Nat.strongRecOn generalizing items start with
  | _ count ih =>
    conv_lhs => unfold halvingSort
    conv_rhs => unfold halvingSort
    rw [List.length_zipIdx]
    by_cases short : items.length < 2
    · rw [if_pos short, if_pos short, List.zipIdx_map_fst]
    · rw [if_neg short, if_neg short]
      have half : (items.take (items.length / 2)).length = items.length / 2 := by
        rw [List.length_take]
        omega
      have both : items.zipIdx start = (items.take (items.length / 2)).zipIdx start ++
          (items.drop (items.length / 2)).zipIdx (start + items.length / 2) := by
        conv_lhs => rw [← List.take_append_drop (items.length / 2) items, List.zipIdx_append, half]
      have left : (items.zipIdx start).take (items.length / 2) = (items.take (items.length / 2)).zipIdx start := by
        rw [both, List.take_left' (by rw [List.length_zipIdx, half])]
      have right : (items.zipIdx start).drop (items.length / 2) =
          (items.drop (items.length / 2)).zipIdx (start + items.length / 2) := by
        rw [both, List.drop_left' (by rw [List.length_zipIdx, half])]
      rw [left, right, List.merge_stable, ih _ ?_ _ _ rfl, ih _ ?_ _ _ rfl]
      · rw [List.length_drop]
        omega
      · rw [List.length_take]
        omega
      · intro a b inLeft inRight
        have first := List.mem_zipIdx ((halvingSort_perm _ _).subset inLeft)
        have second := List.mem_zipIdx ((halvingSort_perm _ _).subset inRight)
        omega

theorem map_halvingSort {β : Type} {le' : β → β → Bool} {f : α → β} {items : List α}
    (same : ∀ a ∈ items, ∀ b ∈ items, le a b = le' (f a) (f b)) :
    (halvingSort le items).map f = halvingSort le' (items.map f) := by
  fun_induction halvingSort le items with
  | case1 items short => rw [halvingSort, List.length_map, if_pos short]
  | case2 items long ihLeft ihRight =>
    have left := ihLeft fun a inA b inB => same a (List.mem_of_mem_take inA) b (List.mem_of_mem_take inB)
    have right := ihRight fun a inA b inB => same a (List.mem_of_mem_drop inA) b (List.mem_of_mem_drop inB)
    rw [List.map_merge (s := le') fun a inA b inB => same a ?_ b ?_, left, right]
    · conv_rhs => rw [halvingSort, List.length_map, if_neg long, ← List.map_take, ← List.map_drop]
    · exact List.mem_of_mem_take ((halvingSort_perm _ _).subset inA)
    · exact List.mem_of_mem_drop ((halvingSort_perm _ _).subset inB)

/-- There is one stable way to sort. -/
theorem halvingSort_eq_mergeSort (trans : ∀ a b c, le a b = true → le b c = true → le a c = true)
    (total : ∀ a b, (le a b || le b a) = true) (items : List α) : halvingSort le items = items.mergeSort le := by
  rw [← halvingSort_zipIdx items 0, ← List.mergeSort_zipIdx]
  congr 1
  have sortedLeft := halvingSort_pairwise (List.zipIdxLE_trans trans) (List.zipIdxLE_total total) items.zipIdx
  have sortedRight := List.pairwise_mergeSort (List.zipIdxLE_trans trans) (List.zipIdxLE_total total) items.zipIdx
  have permLeft := halvingSort_perm (List.zipIdxLE le) items.zipIdx
  have permRight := List.mergeSort_perm items.zipIdx (List.zipIdxLE le)
  refine List.Perm.eq_of_pairwise ?_ sortedLeft sortedRight (permLeft.trans permRight.symm)
  rintro ⟨a, i⟩ ⟨b, j⟩ inLeft inRight forth back
  have first := List.mem_zipIdx (permLeft.subset inLeft)
  have second := List.mem_zipIdx (permRight.subset inRight)
  have same : i = j := by
    cases ab : le a b <;> cases ba : le b a <;> simp only [List.zipIdxLE, ab, ba, Bool.false_eq_true, if_true, if_false,
      decide_eq_true_eq] at forth back
    omega
  subst same
  rw [first.2.2, second.2.2]

/-! Stable sorting between separators: the items of key zero stay where they are, and every run of
other items is sorted by key.

The order is built from left to right: one more item is placed behind the last one whose key is not
greater.
-/

section Sorted
variable {α : Type} {key : α → Nat}

theorem mergeSort_cons_eq (a : α) (items : List α) :
    (a :: items).mergeSort (key · ≤ key ·) = (items.mergeSort (key · ≤ key ·)).orderedInsert (key · ≤ key ·) a := by
  have trans (x y z : α) (first : decide (key x ≤ key y) = true) (second : decide (key y ≤ key z) = true) :
      decide (key x ≤ key z) = true := by
    simp only [decide_eq_true_eq] at first second ⊢
    exact first.trans second
  have total (x y : α) : (decide (key x ≤ key y) || decide (key y ≤ key x)) = true := by
    simpa using Nat.le_total (key x) (key y)
  obtain ⟨front, back, sorted, rest, before⟩ := List.mergeSort_cons trans total a items
  have ordered := List.pairwise_mergeSort trans total (a :: items)
  rw [sorted] at ordered ⊢
  rw [rest]
  have behind := (List.pairwise_cons.mp (List.pairwise_append.mp ordered).2.1).1
  clear sorted rest ordered
  -- all in front are less than `a`, and the first one behind it is not
  induction front with
  | nil =>
    cases back with
    | nil => rfl
    | cons b back =>
      have le : key a ≤ key b := of_decide_eq_true (behind b List.mem_cons_self)
      exact (if_pos le).symm
  | cons b front ih =>
    have less := before b List.mem_cons_self
    rw [List.cons_append, List.cons_append, List.orderedInsert_of_not_le _ _ (by simpa using less),
      ih fun x member => before x (List.mem_cons_of_mem _ member)]

/-- Insertions from the two sides commute: the one from the left goes before equal keys, the other behind them. -/
theorem orderedInsert_comm (a c : α) (items : List α) :
    (items.orderedInsert (key · ≤ key ·) a).orderedInsert (key · < key ·) c =
      (items.orderedInsert (key · < key ·) c).orderedInsert (key · ≤ key ·) a := by
  induction items with
  | nil =>
    simp only [List.orderedInsert]
    split_ifs <;> first | rfl | omega
  | cons b items ih =>
    by_cases below : key a ≤ key b <;> by_cases above : key c < key b
    · simp only [List.orderedInsert, below, above, if_true]
      split_ifs <;> first | rfl | omega
    · simp only [List.orderedInsert, below, above, if_true, if_false]
      rw [if_neg (by omega)]
    · simp only [List.orderedInsert, below, above, if_true, if_false]
      rw [if_neg (by omega)]
    · simp only [List.orderedInsert, below, above, if_false, ih]

theorem mergeSort_concat (items : List α) (c : α) :
    (items ++ [c]).mergeSort (key · ≤ key ·) = (items.mergeSort (key · ≤ key ·)).orderedInsert (key · < key ·) c := by
  induction items with
  | nil => simp
  | cons a items ih => rw [List.cons_append, mergeSort_cons_eq, ih, mergeSort_cons_eq, orderedInsert_comm]

end Sorted

section Runs
variable {α : Type} (key : α → Nat)

/-- Every run of items whose key is not zero is sorted by key, stably; all other items keep their positions. -/
def sortRuns : List α → List α
  | [] => []
  | a :: items =>
    if key a = 0 then a :: sortRuns items
    else (a :: items.takeWhile (key · ≠ 0)).mergeSort (key · ≤ key ·) ++ sortRuns (items.dropWhile (key · ≠ 0))
termination_by items => items.length
decreasing_by
  · exact Nat.lt_succ_self _
  · exact Nat.lt_succ_of_le (List.dropWhile_suffix _).length_le

/-- An item moves leftward past all greater keys. -/
def placeItem (c : α) (items : List α) : List α :=
  items.rdropWhile (key c < key ·) ++ c :: items.rtakeWhile (key c < key ·)

variable {key} {c : α} {items front back run : List α}

theorem placeItem_append (greater : ∀ b ∈ back, key c < key b) (last : ∀ b ∈ front.getLast?, key b ≤ key c) :
    placeItem key c (front ++ back) = front ++ c :: back := by
  have all : ∀ b ∈ back.reverse, decide (key c < key b) = true := fun b member =>
    decide_eq_true (greater b (List.mem_reverse.mp member))
  have stays : front.reverse.dropWhile (key c < key ·) = front.reverse ∧ front.reverse.takeWhile (key c < key ·) = [] := by
    rw [← List.head?_reverse] at last
    cases reversed : front.reverse with
    | nil => exact ⟨rfl, rfl⟩
    | cons b rest =>
      rw [reversed] at last
      have small : ¬key c < key b := Nat.not_lt.mpr (last b rfl)
      exact ⟨List.dropWhile_cons_of_neg (by simpa using small), List.takeWhile_cons_of_neg (by simpa using small)⟩
  unfold placeItem List.rdropWhile List.rtakeWhile
  rw [List.reverse_append, List.dropWhile_append_of_pos all, List.takeWhile_append_of_pos all, stays.1, stays.2,
    List.append_nil, List.reverse_reverse, List.reverse_reverse]

theorem sortRuns_cons_zero (zero : key c = 0) : sortRuns key (c :: items) = c :: sortRuns key items := by
  rw [sortRuns, if_pos zero]

theorem sortRuns_run (nonzero : ∀ b ∈ run, key b ≠ 0) (ends : ∀ b ∈ back.head?, key b = 0) :
    sortRuns key (run ++ back) = run.mergeSort (key · ≤ key ·) ++ sortRuns key back := by
  cases run with
  | nil => simp
  | cons a run =>
    have all : ∀ b ∈ run, decide (key b ≠ 0) = true := fun b member =>
      decide_eq_true (nonzero b (List.mem_cons_of_mem _ member))
    have stops : back.takeWhile (key · ≠ 0) = [] ∧ back.dropWhile (key · ≠ 0) = back := by
      cases back with
      | nil => exact ⟨rfl, rfl⟩
      | cons b back =>
        have zero : key b = 0 := ends b rfl
        exact ⟨List.takeWhile_cons_of_neg (by simp [zero]), List.dropWhile_cons_of_neg (by simp [zero])⟩
    rw [List.cons_append, sortRuns, if_neg (nonzero a List.mem_cons_self), List.takeWhile_append_of_pos all,
      List.dropWhile_append_of_pos all, stops.1, stops.2, List.append_nil]

theorem runs_induction {motive : List α → Prop} (empty : motive [])
    (separator : ∀ c items, key c = 0 → motive items → motive (c :: items))
    (sorted : ∀ run back, run ≠ [] → (∀ b ∈ run, key b ≠ 0) → (∀ b ∈ back.head?, key b = 0) → motive back → motive (run ++ back))
    (items : List α) : motive items := by
  fun_induction sortRuns key items with
  | case1 => exact empty
  | case2 a items zero ih => exact separator a items zero ih
  | case3 a items nonzero ih =>
    have split := sorted (a :: items.takeWhile (key · ≠ 0)) (items.dropWhile (key · ≠ 0)) (List.cons_ne_nil _ _) ?_ ?_ ih
    · rwa [List.cons_append, List.takeWhile_append_dropWhile] at split
    · intro b member
      rcases List.mem_cons.mp member with rfl | later
      · exact nonzero
      · simpa using List.mem_takeWhile_imp later
    · intro b first
      have stopped := List.head?_dropWhile_not (key · ≠ 0) items
      rw [first] at stopped
      simpa using stopped

theorem sortRuns_append_zero (zero : key c = 0) (front back : List α) :
    sortRuns key (front ++ c :: back) = sortRuns key front ++ c :: sortRuns key back := by
  induction front using @runs_induction _ key with
  | empty => rw [List.nil_append, sortRuns_cons_zero zero, sortRuns]; rfl
  | separator a items first ih => rw [List.cons_append, sortRuns_cons_zero first, sortRuns_cons_zero first, ih, List.cons_append]
  | sorted run rest some nonzero ends ih =>
    have ends' : ∀ b ∈ (rest ++ c :: back).head?, key b = 0 := by
      cases rest with
      | nil => simpa using zero
      | cons b rest => simpa using ends
    rw [List.append_assoc, sortRuns_run nonzero ends', sortRuns_run nonzero ends, ih, List.append_assoc]

theorem exists_place (c : α) (items : List α) :
    ∃ front back, items = front ++ back ∧ (∀ b ∈ back, key c < key b) ∧ ∀ b ∈ front.getLast?, key b ≤ key c := by
  induction items using List.reverseRecOn with
  | nil => exact ⟨[], [], rfl, List.forall_mem_nil _, by rintro b ⟨⟩⟩
  | append_singleton items b ih =>
    by_cases greater : key c < key b
    · obtain ⟨front, back, rfl, all, last⟩ := ih
      refine ⟨front, back ++ [b], List.append_assoc _ _ _, ?_, last⟩
      intro a member
      rcases List.mem_append.mp member with earlier | here
      · exact all a earlier
      · rwa [List.mem_singleton.mp here]
    · refine ⟨items ++ [b], [], (List.append_nil _).symm, List.forall_mem_nil _, ?_⟩
      intro a last
      rw [List.getLast?_concat, Option.mem_some_iff] at last
      rw [← last]
      exact Nat.not_lt.mp greater

/-- No item moves past one that is not greater. -/
theorem placeItem_behind {b : α} (le : key b ≤ key c) (front items : List α) :
    placeItem key c (front ++ b :: items) = front ++ b :: placeItem key c items := by
  obtain ⟨before, after, rfl, greater, last⟩ := @exists_place _ key c items
  have last' : ∀ a ∈ (front ++ b :: before).getLast?, key a ≤ key c := by
    rw [List.getLast?_append_cons]
    cases before using List.reverseRecOn with
    | nil => simpa using le
    | append_singleton before d =>
      rw [← List.cons_append, List.getLast?_concat]
      rwa [List.getLast?_concat] at last
  rw [placeItem_append greater last, ← List.cons_append, ← List.append_assoc, placeItem_append greater last', List.append_assoc,
    List.cons_append]

theorem placeItem_of_le (last : ∀ b ∈ items.getLast?, key b ≤ key c) : placeItem key c items = items ++ [c] := by
  have stays := @placeItem_append _ key c items [] (List.forall_mem_nil _) last
  rwa [List.append_nil] at stays

theorem placeItem_of_pairwise (sorted : items.Pairwise (key · ≤ key ·)) :
    placeItem key c items = items.orderedInsert (key · < key ·) c := by
  induction items with
  | nil => rfl
  | cons b items ih =>
    obtain ⟨least, rest⟩ := List.pairwise_cons.mp sorted
    by_cases less : key c < key b
    · have all : ∀ a ∈ b :: items, key c < key a := by
        intro a member
        rcases List.mem_cons.mp member with rfl | later
        · exact less
        · exact Nat.lt_of_lt_of_le less (least a later)
      rw [List.orderedInsert, if_pos less]
      exact @placeItem_append _ key c [] _ all (by rintro b ⟨⟩)
    · rw [List.orderedInsert, if_neg less, ← ih rest]
      exact placeItem_behind (Nat.not_lt.mp less) [] items

theorem pairwise_mergeSort_key (items : List α) : (items.mergeSort (key · ≤ key ·)).Pairwise (key · ≤ key ·) := by
  have sorted := @List.pairwise_mergeSort α (fun a b => decide (key a ≤ key b))
    (fun a b c first second => decide_eq_true ((of_decide_eq_true first).trans (of_decide_eq_true second)))
    (fun a b => by simpa using Nat.le_total (key a) (key b)) items
  exact sorted.imp of_decide_eq_true

theorem sortRuns_concat (nonzero : key c ≠ 0) (items : List α) :
    sortRuns key (items ++ [c]) = placeItem key c (sortRuns key items) := by
  have alone : ∀ b ∈ [c], key b ≠ 0 := by simpa using nonzero
  induction items using @runs_induction _ key with
  | empty =>
    have one := @sortRuns_run _ key [] [c] alone (by rintro b ⟨⟩)
    rw [sortRuns, List.append_nil, List.append_nil, List.mergeSort_singleton] at one
    rw [sortRuns]
    exact one
  | separator a items zero ih =>
    rw [List.cons_append, sortRuns_cons_zero zero, sortRuns_cons_zero zero, ih]
    exact (placeItem_behind (by omega) [] _).symm
  | sorted run back some all ends ih =>
    cases back with
    | nil =>
      have all' : ∀ b ∈ run ++ [c], key b ≠ 0 := by
        intro b member
        rcases List.mem_append.mp member with earlier | here
        · exact all b earlier
        · exact alone b here
      have whole := @sortRuns_run _ key [] run all (by rintro b ⟨⟩)
      have whole' := @sortRuns_run _ key [] (run ++ [c]) all' (by rintro b ⟨⟩)
      rw [sortRuns, List.append_nil, List.append_nil] at whole whole'
      rw [List.append_nil, whole, whole', mergeSort_concat, placeItem_of_pairwise (pairwise_mergeSort_key run)]
    | cons z back =>
      -- the item stays behind the separator
      have zero : key z = 0 := ends z rfl
      rw [List.append_assoc, sortRuns_run all (by simpa using zero), ih, sortRuns_run all ends, sortRuns_cons_zero zero,
        placeItem_behind (by omega)]
      exact congrArg _ (placeItem_behind (by omega) [] _)

/-! ## Ordered lists -/

/-- Nothing is behind a greater item, unless it is a separator. -/
def RunsSorted (key : α → Nat) (items : List α) : Prop := items.IsChain fun a b => key b = 0 ∨ key a ≤ key b

theorem sortRuns_of_runsSorted (sorted : RunsSorted key items) : sortRuns key items = items := by
  induction items using List.reverseRecOn with
  | nil => rw [sortRuns]
  | append_singleton items c ih =>
    obtain ⟨rest, -, last⟩ := List.isChain_append.mp sorted
    by_cases zero : key c = 0
    · rw [sortRuns_append_zero zero, ih rest, sortRuns]
    · rw [sortRuns_concat zero, ih rest]
      apply placeItem_of_le
      intro b isLast
      exact (last b isLast c rfl).resolve_left zero

theorem runsSorted_sortRuns (items : List α) : RunsSorted key (sortRuns key items) := by
  induction items using @runs_induction _ key with
  | empty =>
    rw [sortRuns]
    exact List.isChain_nil
  | separator a items zero ih =>
    rw [sortRuns_cons_zero zero]
    apply List.isChain_cons.mpr
    exact ⟨fun b _ => Or.inr (by omega), ih⟩
  | sorted run back some nonzero ends ih =>
    rw [sortRuns_run nonzero ends]
    have chain : RunsSorted key (run.mergeSort (key · ≤ key ·)) := (pairwise_mergeSort_key run).isChain.imp fun _ _ => Or.inr
    refine List.isChain_append.mpr ⟨chain, ih, ?_⟩
    intro a _ b first
    left
    cases back with
    | nil => simp [sortRuns] at first
    | cons z back =>
      have zero : key z = 0 := ends z rfl
      rw [sortRuns_cons_zero zero, List.head?_cons, Option.mem_some_iff] at first
      rwa [← first]

/-- Sorting a part first does not matter. -/
theorem sortRuns_sortRuns_append (front back : List α) :
    sortRuns key (sortRuns key front ++ back) = sortRuns key (front ++ back) := by
  induction back using List.reverseRecOn with
  | nil => rw [List.append_nil, List.append_nil, sortRuns_of_runsSorted (runsSorted_sortRuns front)]
  | append_singleton back c ih =>
    rw [← List.append_assoc, ← List.append_assoc]
    by_cases zero : key c = 0
    · rw [sortRuns_append_zero zero, sortRuns_append_zero zero, ih]
    · rw [sortRuns_concat zero, sortRuns_concat zero, ih]

theorem length_sortRuns (items : List α) : (sortRuns key items).length = items.length := by
  induction items using @runs_induction _ key with
  | empty => rw [sortRuns]
  | separator a items zero ih => rw [sortRuns_cons_zero zero, List.length_cons, List.length_cons, ih]
  | sorted run back some nonzero ends ih =>
    rw [sortRuns_run nonzero ends, List.length_append, List.length_append, List.length_mergeSort, ih]

end Runs
end Xpl.Library
