import Xpl.Collections.QueueRemoval
import Xpl.Library.Sorting

/-! Reversing, sorting, copying and clearing a queue. -/

set_option autoImplicit false

namespace Xpl.Collections
open Xpl.Library

variable {D : Type}

def takesFirst (compare : D → D → Int) (a b : Item D) : Bool := compare a.2 b.2 ≤ 0

/-- The links in the order in which the sort leaves them. -/
def sortItems (compare : D → D → Int) (links : List (Item D)) : List (Item D) := halvingSort (takesFirst compare) links

section Reverse

variable {s : Links D} {queue : Queue} {links : List (Item D)}

/-- What a loop over the links of one queue leaves alone. -/
structure Outside (s t : Links D) (links : List (Item D)) : Prop where
  frame : ∀ q, q ∉ addresses links → t.cell q = s.cell q
  fresh : t.Fresh
  next : t.next = s.next

theorem Outside.trans {s t u : Links D} {links : List (Item D)} (first : Outside s t links) (second : Outside t u links) :
    Outside s u links :=
  ⟨fun q out => (second.frame q out).trans (first.frame q out), second.fresh, second.next.trans first.next⟩

theorem Outside.mono {s t : Links D} {links more : List (Item D)} (outside : Outside s t links)
    (subset : addresses links ⊆ addresses more) : Outside s t more :=
  ⟨fun q out => outside.frame q fun member => out (subset member), outside.fresh, outside.next⟩

theorem xlistReverse_spec {rest turned : List (Item D)} (done : Segment s (firstOr rest none) turned none)
    (ahead : Segment s (firstOr turned none) rest none) (nodup : (addresses (turned ++ rest)).Nodup) (fresh : s.Fresh)
    {fuel : Nat} (enough : rest.length < fuel) :
    ∃ t, xlistReverse s fuel (firstOr rest none) (firstOr turned none) = some (firstOr (rest.reverse ++ turned) none, t) ∧
      Segment t none (rest.reverse ++ turned) none ∧ Outside s t rest := by
  -- the links turned so far end in the first of the rest, as the source keeps `last`
  induction rest generalizing s turned fuel with
  | nil =>
    obtain ⟨fuel, rfl⟩ := Nat.exists_eq_succ_of_ne_zero (Nat.ne_zero_of_lt enough)
    exact ⟨s, rfl, done, fun q out => rfl, fresh, rfl⟩
  | cons item rest ih =>
    obtain ⟨p, data⟩ := item
    obtain ⟨fuel, rfl⟩ := Nat.exists_eq_succ_of_ne_zero (Nat.ne_zero_of_lt enough)
    have cell := ahead.1
    obtain ⟨nodupRest, notTurned, notRest⟩ := nodup_split nodup
    have turnedAround : ∃ t, setNext s p (firstOr turned none) = some t ∧
        ∃ u, setPrev t p (firstOr rest none) = some u ∧
          u.cell p = some { data := data, next := firstOr turned none, prev := firstOr rest none } ∧
          Outside s u [(p, data)] := by
      refine ⟨_, Store.modify_eq _ cell, _, Store.modify_eq _ (Store.cell_adjust_self _ cell),
        Store.cell_adjust_self _ (Store.cell_adjust_self _ cell), fun q out => ?_, (fresh.adjust _ _).adjust _ _, rfl⟩
      have other : some p ≠ some q := fun same => out (by simp [Option.some.inj same])
      rw [Store.cell_adjust_ne _ other, Store.cell_adjust_ne _ other]
    obtain ⟨t, first, u, second, here, outside⟩ := turnedAround
    have kept : ∀ q, q ≠ p → u.cell q = s.cell q := fun q other => outside.frame q (by simpa using other)
    have doneAfter : Segment u (firstOr rest none) ((p, data) :: turned) none :=
      ⟨here, done.congr fun q member => kept q fun same => notTurned (same ▸ member)⟩
    have aheadAfter : Segment u (some p) rest none :=
      ahead.2.congr fun q member => kept q fun same => notRest (same ▸ member)
    have nodupAfter : (addresses ((p, data) :: turned ++ rest)).Nodup := by
      rw [List.cons_append, addresses_cons, List.nodup_cons, addresses_append, List.mem_append, not_or, ← addresses_append]
      exact ⟨⟨notTurned, notRest⟩, nodupRest⟩
    obtain ⟨v, looped, segment, further⟩ := ih doneAfter aheadAfter nodupAfter outside.fresh (Nat.lt_of_succ_lt_succ enough)
    refine ⟨v, ?_, ?_, (outside.mono ?_).trans (further.mono ?_)⟩
    · rw [firstOr_cons] at looped
      simp only [firstOr_cons, xlistReverse, cell, some_bind, first, second, looped,
        List.reverse_cons, List.append_assoc, List.singleton_append]
    · simpa using segment
    · simp
    · exact fun q member => List.mem_cons_of_mem _ member

theorem lastOr_reverse (links : List (Item D)) : lastOr none links.reverse = firstOr links none := by
  simp [firstOr, lastOr]

theorem gQueueReverse_spec (represents : Represents s queue links) (fresh : s.Fresh) :
    ∃ t after, gQueueReverse s queue = some (t, after) ∧ Represents t after links.reverse ∧ Outside s t links := by
  obtain ⟨t, reversed, segment, outside⟩ := @xlistReverse_spec _ s links [] trivial represents.segment represents.nodup fresh _
    (represents.turns fresh)
  rw [List.append_nil] at reversed segment
  rw [firstOr_nil, ← represents.head] at reversed
  simp only [gQueueReverse, reversed, some_bind]
  refine ⟨_, _, rfl, ⟨segment, ?_, rfl, ?_, ?_⟩, outside⟩
  · rw [addresses, List.map_reverse, List.nodup_reverse]
    exact represents.nodup
  · rw [lastOr_reverse]
    exact represents.head
  · rw [List.length_reverse]
    exact represents.length

end Reverse

section Merge
variable {p : Nat} {data : D}
variable {s : Links D} {done xs ys rest : List (Item D)} {before x : Option Nat} {compare : D → D → Int}

/-- The store after the first link of `rest` has been put behind those already merged. -/
def joined (s : Links D) (done rest : List (Item D)) : Links D := rejoin s done rest (firstOr rest none) (lastOr none done)

theorem joined_segment (merged : Segment s none done x) (ahead : Segment s before rest none)
    (nodup : (addresses (done ++ rest)).Nodup) : Segment (joined s done rest) none (done ++ rest) none :=
  segment_append.mpr (merged.rejoin ahead nodup _ _)

theorem mergeNext_spec (merged : Segment s none done x) (ahead : Segment s before ((p, data) :: rest) none)
    (nodup : (addresses (done ++ (p, data) :: rest)).Nodup) :
    ∃ t, mergeNext s (firstOr done none) (lastOr none done) (some p) = some (firstOr (done ++ [(p, data)]) none, t) ∧
      setPrev t p (lastOr none done) = some (joined s done ((p, data) :: rest)) := by
  have cell := ahead.1
  rcases List.eq_nil_or_concat done with rfl | ⟨front, ⟨l, d⟩, rfl⟩
  · exact ⟨s, rfl, Store.modify_eq _ cell⟩
  · rw [List.concat_eq_append] at merged nodup ⊢
    have last := (segment_append.mp merged).2.1
    have other : l ≠ p := by
      rintro rfl
      exact (nodup_split nodup).2.1 (by simp)
    rw [lastOr_concat]
    refine ⟨s.adjust (some l) fun link => { link with next := some p }, ?_, ?_⟩
    · simp only [mergeNext, setNext, Store.modify_eq _ last, Option.map_some]
      cases front <;> rfl
    · have kept := Store.cell_adjust_ne (fun link : Link D => { link with next := some p })
        (fun same : some l = some p => other (Option.some.inj same)) |>.trans cell
      rw [setPrev, Store.modify_eq _ kept, joined, rejoin, lastOr_concat]
      rfl

theorem joined_outside (fresh : s.Fresh) : Outside s (joined s done rest) (done ++ rest) :=
  ⟨fun _ out => cell_rejoin_ne out, (fresh.adjust _ _).adjust _ _, rfl⟩

/-- The end of the merge: what is left of one list follows the merged links. -/
theorem merge_rest {l : Nat} (merged : Segment s none done x) (ahead : Segment s before ((p, data) :: rest) none)
    (nodup : (addresses (done ++ (p, data) :: rest)).Nodup) (last : lastOr none done = some l) :
    (do
      let (head, s) ← mergeNext s (firstOr done none) (lastOr none done) (some p)
      let last ← lastOr none done
      let rest ← some p
      let s ← setPrev s rest (some last)
      some (head, s)) = some (firstOr (done ++ (p, data) :: rest) none, joined s done ((p, data) :: rest)) := by
  obtain ⟨t, first, second⟩ := mergeNext_spec merged ahead nodup
  rw [last] at first second
  simp only [first, some_bind, last, second]
  cases done <;> rfl

theorem merge_turn {other : List (Item D)} {c : Option Nat} (merged : Segment s none done x)
    (ahead : Segment s before ((p, data) :: rest) none) (aside : Segment s c other none)
    (nodup : (addresses (done ++ ((p, data) :: rest ++ other))).Nodup) :
    Segment (joined s done ((p, data) :: rest)) none (done ++ [(p, data)]) (firstOr rest none) ∧
      Segment (joined s done ((p, data) :: rest)) (some p) rest none ∧
      Segment (joined s done ((p, data) :: rest)) c other none := by
  rw [← List.append_assoc, addresses_append, List.nodup_append] at nodup
  have all := joined_segment merged ahead nodup.1
  rw [List.append_cons] at all
  obtain ⟨first, second⟩ := segment_append.mp all
  rw [lastOr_concat] at second
  refine ⟨first, second, aside.congr fun q member => cell_rejoin_ne fun inside => ?_⟩
  exact nodup.2.2 q inside q member rfl

theorem xlistSortMerge_spec (merged : Segment s none done x) {b c : Option Nat} (left : Segment s b xs none)
    (right : Segment s c ys none) (nodup : (addresses (done ++ (xs ++ ys))).Nodup) (fresh : s.Fresh)
    (some_left : done = [] → xs ≠ [] ∧ ys ≠ []) (some_rest : xs ≠ [] ∨ ys ≠ []) {fuel : Nat}
    (enough : xs.length + ys.length < fuel) :
    ∃ t, xlistSortMerge s compare fuel (firstOr xs none) (firstOr ys none) (firstOr done none) (lastOr none done) =
        some (firstOr (done ++ List.merge xs ys (takesFirst compare)) none, t) ∧
      Segment t none (done ++ List.merge xs ys (takesFirst compare)) none ∧ Outside s t (done ++ (xs ++ ys)) := by
  -- what is merged already is a segment of its own; a turn moves the first node of one side to its end
  induction fuel generalizing s done xs ys x b c with
  | zero => omega
  | succ fuel ih =>
    -- where one side is used up something has been merged, so there is a last node to link the rest to
    have some_done : ∀ other : List (Item D), other = [] → (xs = other ∨ ys = other) → ∃ l, lastOr none done = some l := by
      rintro _ rfl empty
      cases done with
      | nil =>
        have both := some_left rfl
        rcases empty with rfl | rfl
        · exact absurd rfl both.1
        · exact absurd rfl both.2
      | cons item done =>
        obtain ⟨l, last⟩ := lastOr_some item.1 done
        exact ⟨l, (lastOr_cons none).trans last⟩
    cases xs with
    | nil =>
      obtain ⟨l, last⟩ := some_done [] rfl (Or.inl rfl)
      cases ys with
      | nil => exact absurd some_rest (by simp)
      | cons item ys =>
        obtain ⟨p, data⟩ := item
        refine ⟨joined s done ((p, data) :: ys), ?_, ?_, joined_outside fresh⟩
        · exact (merge_rest merged right nodup last).trans (by rw [List.nil_merge])
        · rw [List.nil_merge]
          exact joined_segment merged right nodup
    | cons first xs =>
      obtain ⟨p, data⟩ := first
      cases ys with
      | nil =>
        rw [List.append_nil] at nodup
        obtain ⟨l, last⟩ := some_done [] rfl (Or.inr rfl)
        refine ⟨joined s done ((p, data) :: xs), ?_, ?_, ?_⟩
        · exact (merge_rest merged left nodup last).trans (by rw [List.merge_right])
        · rw [List.merge_right]
          exact joined_segment merged left nodup
        · rw [List.append_nil]
          exact joined_outside fresh
      | cons second ys =>
        obtain ⟨q, datum⟩ := second
        have cellLeft := left.1
        have cellRight := right.1
        by_cases takes : compare data datum ≤ 0
        · obtain ⟨t, linked, set⟩ := mergeNext_spec merged left (by
            rw [← List.append_assoc, addresses_append, List.nodup_append] at nodup
            exact nodup.1)
          obtain ⟨mergedAfter, leftAfter, rightAfter⟩ := merge_turn merged left right nodup
          have outside := @joined_outside _ s done ((p, data) :: xs) fresh
          obtain ⟨u, looped, segment, further⟩ := ih mergedAfter leftAfter rightAfter
            (by simpa using nodup) outside.fresh (by simp) (Or.inr (by simp)) (by simp at enough ⊢; omega)
          rw [lastOr_concat] at looped
          have merges : List.merge ((p, data) :: xs) ((q, datum) :: ys) (takesFirst compare) =
              (p, data) :: List.merge xs ((q, datum) :: ys) (takesFirst compare) := by
            rw [List.cons_merge_cons, if_pos (show takesFirst compare _ _ = true from decide_eq_true takes)]
          refine ⟨u, ?_, ?_, (outside.mono ?_).trans (further.mono ?_)⟩
          · rw [merges, List.append_cons, ← looped]
            simp only [firstOr_cons, xlistSortMerge, cellLeft, cellRight, some_bind, takes, if_true,
              linked, set]
          · rw [merges, List.append_cons]
            exact segment
          · intro r member
            simp only [addresses_append, List.mem_append] at member ⊢
            grind
          · intro r member
            grind
        · have swapped : (addresses (done ++ ((q, datum) :: ys ++ (p, data) :: xs))).Nodup :=
            (((List.perm_append_comm).append_left done).map Prod.fst).nodup_iff.mp nodup
          obtain ⟨t, linked, set⟩ := mergeNext_spec merged right (by
            rw [← List.append_assoc, addresses_append, List.nodup_append] at swapped
            exact swapped.1)
          obtain ⟨mergedAfter, rightAfter, leftAfter⟩ := merge_turn merged right left swapped
          have outside := @joined_outside _ s done ((q, datum) :: ys) fresh
          have nodupAfter : (addresses (done ++ [(q, datum)] ++ ((p, data) :: xs ++ ys))).Nodup := by
            have perm : (done ++ ((q, datum) :: ys ++ (p, data) :: xs)).Perm (done ++ [(q, datum)] ++ ((p, data) :: xs ++ ys)) := by
              rw [List.append_assoc]
              exact ((@List.perm_append_comm _ ys _).cons (q, datum)).append_left done
            exact (perm.map Prod.fst).nodup_iff.mp swapped
          obtain ⟨u, looped, segment, further⟩ := ih mergedAfter leftAfter rightAfter
            nodupAfter outside.fresh (by simp) (Or.inl (by simp)) (by simp at enough ⊢; omega)
          rw [lastOr_concat] at looped
          have merges : List.merge ((p, data) :: xs) ((q, datum) :: ys) (takesFirst compare) =
              (q, datum) :: List.merge ((p, data) :: xs) ys (takesFirst compare) := by
            have second : ¬takesFirst compare (p, data) (q, datum) = true := fun first => takes (of_decide_eq_true first)
            rw [List.cons_merge_cons, if_neg second]
          refine ⟨u, ?_, ?_, (outside.mono ?_).trans (further.mono ?_)⟩
          · rw [merges, List.append_cons, ← looped]
            simp only [firstOr_cons, xlistSortMerge, cellLeft, cellRight, some_bind, takes, if_false,
              linked, set]
          · rw [merges, List.append_cons]
            exact segment
          · intro r member
            simp only [addresses_append, List.mem_append] at member ⊢
            grind
          · intro r member
            simp only [addresses_append, addresses_cons, addresses_nil, List.mem_append, List.mem_cons] at member ⊢
            grind

end Merge

section Sorting

variable {s : Links D} {queue : Queue} {links : List (Item D)} {before : Option Nat} {compare : D → D → Int}

theorem Segment.cell_drop (segment : Segment s before links none) {n p : Nat} {data : D} {rest : List (Item D)}
    (split : links.drop n = (p, data) :: rest) :
    ∃ prev, s.cell p = some { data := data, next := firstOr rest none, prev := prev } := by
  rw [← List.take_append_drop n links, split] at segment
  exact ⟨_, (segment_append.mp segment).2.1⟩

theorem splitLoop_spec (segment : Segment s before links none) {fuel k : Nat} (inside : 2 * k + 1 < links.length)
    (enough : links.length < fuel + 2 * k + 1) {l1 l2 : Nat} (slow : firstOr (links.drop k) none = some l1)
    (fast : firstOr (links.drop (2 * k + 1)) none = some l2) :
    ∃ p, splitLoop s fuel l1 l2 = some p ∧ firstOr (links.drop (links.length / 2 - 1)) none = some p := by
  -- after `k` turns the slow pointer is at `k` and the fast one at `2 * k + 1`
  induction fuel generalizing k l1 l2 with
  | zero => omega
  | succ fuel ih =>
    cases slowSplit : links.drop k with
    | nil => simp [slowSplit] at slow
    | cons slowItem slowRest =>
      cases fastSplit : links.drop (2 * k + 1) with
      | nil => simp [fastSplit] at fast
      | cons fastItem fastRest =>
        obtain ⟨p, data⟩ := slowItem
        rw [slowSplit] at slow
        rw [fastSplit] at fast
        cases slow
        cases fast
        obtain ⟨_, slowCell⟩ := segment.cell_drop slowSplit
        obtain ⟨_, fastCell⟩ := segment.cell_drop fastSplit
        have length : links.length = fastRest.length + (2 * k + 2) := by
          have count := congrArg List.length fastSplit
          rw [List.length_drop, List.length_cons] at count
          omega
        have slowNext : links.drop (k + 1) = slowRest := by
          rw [← List.drop_drop, slowSplit]
          rfl
        have fastNext : links.drop (2 * k + 2) = fastRest := by
          rw [show 2 * k + 2 = (2 * k + 1) + 1 from rfl, ← List.drop_drop, fastSplit]
          rfl
        cases fastRest with
        | nil =>
          refine ⟨p, ?_, ?_⟩
          · simp [splitLoop, fastCell]
          · rw [length, show (([] : List (Item D)).length + (2 * k + 2)) / 2 - 1 = k by simp, slowSplit]
            rfl
        | cons third fastRest =>
          obtain ⟨r, d⟩ := third
          obtain ⟨_, thirdCell⟩ := segment.cell_drop fastNext
          cases fastRest with
          | nil =>
            refine ⟨p, ?_, ?_⟩
            · simp [splitLoop, fastCell, thirdCell]
            · rw [length, show ([(r, d)].length + (2 * k + 2)) / 2 - 1 = k by simp; omega, slowSplit]
              rfl
          | cons fourth fastRest =>
            obtain ⟨u, e⟩ := fourth
            rw [List.length_cons, List.length_cons] at length
            cases slowRest with
            | nil =>
              rw [List.drop_eq_nil_iff] at slowNext
              omega
            | cons slowSecond slowRest =>
              obtain ⟨v, f⟩ := slowSecond
              have fastThird : links.drop (2 * (k + 1) + 1) = (u, e) :: fastRest := by
                rw [show 2 * (k + 1) + 1 = (2 * k + 2) + 1 by omega, ← List.drop_drop, fastNext]
                rfl
              obtain ⟨p, looped, found⟩ := @ih (k + 1) (by omega) (by omega) v u (by rw [slowNext]; rfl) (by rw [fastThird]; rfl)
              refine ⟨p, ?_, found⟩
              simp [splitLoop, fastCell, thirdCell, slowCell, looped]

theorem sortItems_perm (compare : D → D → Int) (links : List (Item D)) : (sortItems compare links).Perm links :=
  halvingSort_perm _ _

theorem addresses_perm {links more : List (Item D)} (perm : links.Perm more) : (addresses links).Perm (addresses more) :=
  perm.map Prod.fst

theorem split_at_half {l1 : Nat} (long : 2 ≤ links.length)
    (found : firstOr (links.drop (links.length / 2 - 1)) none = some l1) :
    ∃ data, links.drop (links.length / 2 - 1) = (l1, data) :: links.drop (links.length / 2) ∧
      lastOr none (links.take (links.length / 2)) = some l1 := by
  obtain ⟨half, same⟩ : ∃ half, links.length / 2 = half + 1 := ⟨links.length / 2 - 1, by omega⟩
  rw [same] at found ⊢
  have below : half < links.length := by omega
  rw [Nat.add_sub_cancel, List.drop_eq_getElem_cons below] at found ⊢
  cases found
  refine ⟨_, rfl, ?_⟩
  rw [List.take_succ_eq_append_getElem below]
  exact lastOr_concat none

theorem xlistSortReal_spec (segment : Segment s before links none) (nodup : (addresses links).Nodup) (fresh : s.Fresh)
    {fuel : Nat} (enough : links.length < fuel) :
    ∃ t, xlistSortReal s compare fuel (firstOr links none) = some (firstOr (sortItems compare links) none, t) ∧
      (∃ prev, Segment t prev (sortItems compare links) none ∧ (before = none → prev = none)) ∧ Outside s t links := by
  induction fuel generalizing s links before with
  | zero => omega
  | succ fuel ih =>
    by_cases short : links.length < 2
    · have same : sortItems compare links = links := by rw [sortItems, halvingSort, if_pos short]
      rw [same]
      refine ⟨s, ?_, ⟨before, segment, id⟩, fun q out => rfl, fresh, rfl⟩
      rcases links with _ | ⟨⟨p, data⟩, _ | ⟨second, rest⟩⟩
      · rfl
      · simp [xlistSortReal, segment.1]
      · rw [List.length_cons, List.length_cons] at short
        omega
    · have sorted : sortItems compare links = List.merge (sortItems compare (links.take (links.length / 2)))
          (sortItems compare (links.drop (links.length / 2))) (takesFirst compare) := by
        conv_lhs => rw [sortItems, halvingSort, if_neg short]
        rfl
      obtain ⟨p, q, first, second, nextCell⟩ : ∃ p q, firstOr links none = some p ∧
          firstOr (links.drop 1) none = some q ∧ ∃ link, s.cell p = some link ∧ link.next = some q := by
        rcases links with _ | ⟨⟨p, d⟩, _ | ⟨⟨q, e⟩, rest⟩⟩
        · exact absurd (by simp) short
        · exact absurd (by simp) short
        · exact ⟨p, q, rfl, rfl, _, segment.1, rfl⟩
      obtain ⟨head, headCell, headNext⟩ := nextCell
      -- the second of the two pointers goes twice as fast, so the first stops before the second half
      obtain ⟨l1, split, found⟩ := @splitLoop_spec _ s links before segment (turns s) 0 (by omega)
        (Nat.lt_succ_of_lt (segment.lt_turns nodup fresh)) p q first second
      obtain ⟨data, middle, last⟩ := split_at_half (by omega) found
      obtain ⟨_, middleCell⟩ := segment.cell_drop middle
      have parts := segment
      have nodupParts := nodup
      rw [← List.take_append_drop (links.length / 2) links] at parts nodupParts
      rw [addresses_append, List.nodup_append] at nodupParts
      obtain ⟨nodupLeft, nodupRight, apart⟩ := nodupParts
      obtain ⟨left, right⟩ := segment_append.mp parts
      -- the first half is cut off where the slow pointer stands
      have cut := left.relast nodupLeft none
      rw [last] at cut
      have away : ∀ r ∈ addresses (links.drop (links.length / 2)),
          (s.adjust (some l1) fun link => { link with next := none }).cell r = s.cell r := by
        intro r member
        refine Store.cell_adjust_ne _ fun same => ?_
        exact apart r (mem_of_lastOr (last.trans same)) r member rfl
      have lengthLeft : (links.take (links.length / 2)).length < fuel := by
        rw [List.length_take]
        omega
      have lengthRight : (links.drop (links.length / 2)).length < fuel := by
        rw [List.length_drop]
        omega
      -- the halves have no node in common, so sorting the one leaves the other
      obtain ⟨t, sortedLeft, ⟨b, segmentLeft, -⟩, outsideLeft⟩ := ih cut nodupLeft (fresh.adjust _ _) lengthLeft
      have rightAfter := (right.congr away).congr fun r member =>
        outsideLeft.frame r fun inside => apart r inside r member rfl
      obtain ⟨u, sortedRight, ⟨c, segmentRight, -⟩, outsideRight⟩ := ih rightAfter nodupRight outsideLeft.fresh lengthRight
      have permLeft := sortItems_perm compare (links.take (links.length / 2))
      have permRight := sortItems_perm compare (links.drop (links.length / 2))
      have leftAfter := segmentLeft.congr fun r member =>
        outsideRight.frame r fun inside => apart r ((addresses_perm permLeft).subset member) r inside rfl
      have permBoth := permLeft.append permRight
      rw [List.take_append_drop] at permBoth
      have nodupBoth := (addresses_perm permBoth).nodup_iff.mpr nodup
      have turnsAfter : turns u = turns s := congrArg (· + 1) (outsideRight.next.trans outsideLeft.next)
      have count := permBoth.length_eq
      rw [List.length_append] at count
      -- both halves are segments again, and there is something to merge on both sides
      obtain ⟨v, merged, segmentAfter, outside⟩ := @xlistSortMerge_spec _ u [] _ _ none compare trivial b c leftAfter segmentRight
        nodupBoth outsideRight.fresh
        (fun _ => ⟨fun none => by
            have := permLeft.length_eq
            rw [none, List.length_take, List.length_nil] at this
            omega, fun none => by
            have := permRight.length_eq
            rw [none, List.length_drop, List.length_nil] at this
            omega⟩)
        (Or.inl fun none => by
            have := permLeft.length_eq
            rw [none, List.length_take, List.length_nil] at this
            omega)
        (turns u) (by
          rw [turnsAfter, count]
          exact segment.lt_turns nodup fresh)
      rw [List.nil_append] at merged segmentAfter
      refine ⟨v, ?_, ⟨none, sorted ▸ segmentAfter, fun _ => rfl⟩, ?_⟩
      · rw [sorted, ← merged]
        have firstLeft : firstOr (links.take (links.length / 2)) none = some p := by
          rw [← first]
          conv_rhs => rw [← List.take_append_drop (links.length / 2) links, firstOr_append]
          cases left : links.take (links.length / 2) with
          | nil =>
            rw [left] at last
            cases last
          | cons item left => rfl
        rw [firstLeft] at sortedLeft
        simp only [first, xlistSortReal, headCell, some_bind, headNext, split, middleCell, setNext,
          Store.modify_eq _ middleCell, sortedLeft, sortedRight, firstOr_nil, lastOr_nil]
      · have cutOutside : Outside s (s.adjust (some l1) fun link => { link with next := none }) links := by
          refine ⟨fun r out => Store.cell_adjust_ne _ fun same => out ?_, fresh.adjust _ _, rfl⟩
          have member : r ∈ addresses (links.take (links.length / 2)) := mem_of_lastOr (last.trans same)
          exact ((List.take_sublist _ links).map Prod.fst).subset member
        have all : addresses ([] ++ (sortItems compare (links.take (links.length / 2)) ++
            sortItems compare (links.drop (links.length / 2)))) ⊆ addresses links := (addresses_perm permBoth).subset
        exact ((cutOutside.trans (outsideLeft.mono ((List.take_sublist _ links).map Prod.fst).subset)).trans
          (outsideRight.mono ((List.drop_sublist _ links).map Prod.fst).subset)).trans (outside.mono all)

theorem lastLoop_spec (segment : Segment s before links none) {p : Nat} (first : firstOr links none = some p) {fuel : Nat}
    (enough : links.length ≤ fuel) : lastLoop s fuel p = lastOr none links := by
  induction fuel generalizing links before p with
  | zero =>
    rw [List.eq_nil_of_length_eq_zero (Nat.le_zero.mp enough)] at first
    cases first
  | succ fuel ih =>
    match links, segment, first, enough with
    | [(q, data)], segment, rfl, _ => simp [lastLoop, segment.1, lastOr]
    | (q, data) :: (r, datum) :: rest, segment, rfl, enough =>
      have next := ih segment.2 rfl (Nat.le_of_succ_le_succ enough)
      rw [lastOr_cons, lastOr_cons]
      rw [lastOr_cons] at next
      simp only [lastLoop, segment.1, some_bind, firstOr_cons]
      exact next

theorem xlistLast_spec (segment : Segment s before links none) (nodup : (addresses links).Nodup) (fresh : s.Fresh) :
    xlistLast s (firstOr links none) = some (lastOr none links) := by
  cases links with
  | nil => rfl
  | cons item links =>
    obtain ⟨q, last⟩ := lastOr_some item.1 links
    have found := lastLoop_spec segment rfl (Nat.le_of_lt (segment.lt_turns nodup fresh))
    rw [show lastOr none (item :: links) = some q from (lastOr_cons none).trans last] at found ⊢
    exact congrArg (Option.map some) found

theorem gQueueSort_spec (represents : Represents s queue links) (fresh : s.Fresh) (compare : D → D → Int) :
    ∃ t after, gQueueSort s queue compare = some (t, after) ∧ Represents t after (sortItems compare links) ∧
      Outside s t links := by
  obtain ⟨t, sorted, ⟨prev, segment, first⟩, outside⟩ := @xlistSortReal_spec _ s links none compare represents.segment
    represents.nodup fresh _ (represents.turns fresh)
  rw [first rfl] at segment
  have perm := sortItems_perm compare links
  have nodup := (addresses_perm perm).nodup_iff.mpr represents.nodup
  rw [← represents.head] at sorted
  simp only [gQueueSort, sorted, some_bind, xlistLast_spec segment nodup outside.fresh]
  refine ⟨_, _, rfl, ⟨segment, nodup, rfl, rfl, ?_⟩, outside⟩
  rw [perm.length_eq]
  exact represents.length

end Sorting

section Copying

variable {s : Links D} {queue result : Queue} {links copied rest : List (Item D)} {before : Option Nat}

/-- The data on new links. -/
def renumber : Nat → List (Item D) → List (Item D)
  | _, [] => []
  | next, item :: links => (next, item.2) :: renumber (next + 1) links

theorem copyLoop_spec (ahead : Segment s before rest none) (represents : Represents s result copied) (fresh : s.Fresh)
    (apart : ∀ p ∈ addresses rest, p ∉ addresses copied) {fuel : Nat} (enough : rest.length < fuel) :
    ∃ t after, copyLoop fuel s result (firstOr rest none) = some (t, after) ∧
      Represents t after (copied ++ renumber s.next rest) ∧
      (∀ q, q < s.next → q ∉ addresses copied → t.cell q = s.cell q) ∧ t.Fresh ∧ t.next = s.next + rest.length := by
  -- the copies take the next addresses in order, so they are apart from what is still to be copied
  induction rest generalizing s result copied before fuel with
  | nil =>
    obtain ⟨fuel, rfl⟩ := Nat.exists_eq_succ_of_ne_zero (Nat.ne_zero_of_lt enough)
    refine ⟨s, result, rfl, ?_, fun q _ _ => rfl, fresh, rfl⟩
    rwa [renumber, List.append_nil]
  | cons item rest ih =>
    obtain ⟨p, data⟩ := item
    obtain ⟨fuel, rfl⟩ := Nat.exists_eq_succ_of_ne_zero (Nat.ne_zero_of_lt enough)
    obtain ⟨t, pushed, call, inserted⟩ := gQueuePushTail_spec represents fresh data
    have absent := represents.notMem_next fresh
    have kept : ∀ q, q < s.next → q ∉ addresses copied → t.cell q = s.cell q := by
      intro q below out
      exact inserted.frame (by rwa [List.append_nil]) (Nat.ne_of_lt below)
    have representsAfter := inserted.represents (by rwa [List.append_nil]) (by rwa [List.append_nil])
    have next : t.next = s.next + 1 := inserted.next.trans (Nat.max_eq_right (Nat.le_succ _))
    have cell : t.cell p = some { data := data, next := firstOr rest none, prev := before } :=
      (kept p (fresh.lt (ahead.cell_ne List.mem_cons_self)) (apart p List.mem_cons_self)).trans ahead.1
    have aheadAfter := ahead.2.congr fun q member =>
      kept q (fresh.lt (ahead.2.cell_ne member)) (apart q (List.mem_cons_of_mem _ member))
    obtain ⟨u, after, looped, final, frame, freshAfter, last⟩ := ih aheadAfter representsAfter inserted.fresh (by
        intro q member inside
        rw [addresses_append, List.mem_append] at inside
        rcases inside with old | new
        · exact apart q (List.mem_cons_of_mem _ member) old
        · have same : q = s.next := by simpa using new
          exact Nat.ne_of_lt (fresh.lt (ahead.2.cell_ne member)) same) (Nat.lt_of_succ_lt_succ enough)
    refine ⟨u, after, ?_, ?_, fun q below out => ?_, freshAfter, ?_⟩
    · simp only [firstOr_cons, copyLoop, ahead.1, call, cell, some_bind, looped]
    · rw [next, List.append_assoc] at final
      exact final
    · rw [frame q (by omega), kept q below out]
      rw [addresses_append, List.mem_append, not_or]
      exact ⟨out, by simpa using Nat.ne_of_lt below⟩
    · rw [last, next, List.length_cons]
      omega

theorem represents_new (s : Links D) : Represents s gQueueNew ([] : List (Item D)) :=
  ⟨trivial, List.nodup_nil, rfl, rfl, rfl⟩

theorem gQueueCopy_spec (represents : Represents s queue links) (fresh : s.Fresh) :
    ∃ t after, gQueueCopy s queue = some (t, after) ∧ Represents t after (renumber s.next links) ∧
      (∀ q, q < s.next → t.cell q = s.cell q) ∧ t.Fresh ∧ t.next = s.next + links.length := by
  obtain ⟨t, after, copied, final, frame, freshAfter, next⟩ := copyLoop_spec represents.segment (represents_new s) fresh
    (fun _ _ inside => nomatch inside) (represents.turns fresh)
  rw [← represents.head] at copied
  exact ⟨t, after, copied, final, fun q below => frame q below (fun inside => nomatch inside), freshAfter, next⟩

theorem freeLoop_spec (segment : Segment s before links none) (nodup : (addresses links).Nodup) (fresh : s.Fresh) {fuel : Nat}
    (enough : links.length < fuel) :
    ∃ t, freeLoop s fuel (firstOr links none) = some t ∧ Outside s t links := by
  induction links generalizing s before fuel with
  | nil =>
    obtain ⟨fuel, rfl⟩ := Nat.exists_eq_succ_of_ne_zero (Nat.ne_zero_of_lt enough)
    exact ⟨s, rfl, fun _ _ => rfl, fresh, rfl⟩
  | cons item links ih =>
    obtain ⟨p, data⟩ := item
    obtain ⟨fuel, rfl⟩ := Nat.exists_eq_succ_of_ne_zero (Nat.ne_zero_of_lt enough)
    rw [addresses_cons, List.nodup_cons] at nodup
    have ahead : Segment (s.erase p) (some p) links none :=
      segment.2.congr fun q member => Store.cell_erase_ne fun same => nodup.1 (same ▸ member)
    obtain ⟨t, freed, outside⟩ := ih ahead nodup.2 (fresh.erase p) (Nat.lt_of_succ_lt_succ enough)
    refine ⟨t, ?_, fun q out => ?_, outside.fresh, outside.next⟩
    · simp only [firstOr_cons, freeLoop, segment.1, some_bind,
        Store.free_eq (segment.cell_ne List.mem_cons_self), freed]
    · rw [addresses_cons, List.mem_cons, not_or] at out
      rw [outside.frame q out.2, Store.cell_erase_ne out.1]

theorem gQueueClear_spec (represents : Represents s queue links) (fresh : s.Fresh) :
    ∃ t, gQueueClear s queue = some (t, gQueueNew) ∧ Outside s t links := by
  obtain ⟨t, freed, outside⟩ := freeLoop_spec represents.segment represents.nodup fresh (represents.turns fresh)
  rw [← represents.head] at freed
  refine ⟨t, ?_, outside⟩
  simp only [gQueueClear, xlistFree, freed, some_bind]

end Copying

section RemovingAll

variable [DecidableEq D] {s : Links D} {queue : Queue} {front rest : List (Item D)}

/-- The links with other data. -/
def without (data : D) (links : List (Item D)) : List (Item D) := links.filter fun item => item.2 ≠ data

theorem without_cons (data : D) (item : Item D) (links : List (Item D)) :
    without data (item :: links) = if item.2 = data then without data links else item :: without data links := by
  by_cases same : item.2 = data <;> simp [without, same]

theorem removeAllLoop_spec (data : D) (represents : Represents s queue (front ++ rest)) (fresh : s.Fresh) {fuel : Nat}
    (enough : rest.length < fuel) :
    ∃ t after, removeAllLoop data fuel s queue (firstOr rest none) = some (t, after) ∧
      Represents t after (front ++ without data rest) ∧ Outside s t (front ++ rest) := by
  -- the items passed are kept; the next pointer is read before the item is freed
  induction rest generalizing s queue front fuel with
  | nil =>
    obtain ⟨fuel, rfl⟩ := Nat.exists_eq_succ_of_ne_zero (Nat.ne_zero_of_lt enough)
    exact ⟨s, queue, rfl, represents, fun _ _ => rfl, fresh, rfl⟩
  | cons item rest ih =>
    obtain ⟨p, datum⟩ := item
    obtain ⟨fuel, rfl⟩ := Nat.exists_eq_succ_of_ne_zero (Nat.ne_zero_of_lt enough)
    have cell := represents.cell_first
    rw [without_cons]
    by_cases same : datum = data
    · obtain ⟨t, after, deleted, unlinked⟩ := gQueueDeleteLink_spec represents fresh
      obtain ⟨u, final, looped, representsAfter, outside⟩ := ih (unlinked.represents represents) unlinked.fresh
        (Nat.lt_of_succ_lt_succ enough)
      rw [if_pos same]
      refine ⟨u, final, ?_, representsAfter, fun q out => ?_, outside.fresh, outside.next.trans unlinked.next⟩
      · simp only [firstOr_cons, removeAllLoop, cell, some_bind, onlyIf, same, decide_true, if_true,
          deleted, looped]
      · rw [outside.frame q, unlinked.frame out]
        rw [addresses_append, List.mem_append, not_or] at out ⊢
        exact ⟨out.1, fun member => out.2 (List.mem_cons_of_mem _ member)⟩
    · rw [if_neg same]
      rw [List.append_cons] at represents
      obtain ⟨u, final, looped, representsAfter, outside⟩ := ih represents fresh (Nat.lt_of_succ_lt_succ enough)
      refine ⟨u, final, ?_, ?_, ?_⟩
      · simp only [firstOr_cons, removeAllLoop, cell, some_bind, onlyIf, same, decide_false,
          Bool.false_eq_true, if_false, looped]
      · rwa [List.append_cons]
      · rwa [List.append_cons]

theorem gQueueRemoveAll_spec (data : D) (represents : Represents s queue rest) (fresh : s.Fresh)
    (small : rest.length < 2 ^ 32) :
    ∃ t after, gQueueRemoveAll s queue data = some (rest.length - (without data rest).length, t, after) ∧
      Represents t after (without data rest) ∧ Outside s t rest := by
  obtain ⟨t, after, looped, final, outside⟩ := @removeAllLoop_spec _ _ s queue [] rest data represents fresh _
    (represents.turns fresh)
  rw [← represents.head] at looped
  refine ⟨t, after, ?_, final, outside⟩
  simp only [gQueueRemoveAll, looped, some_bind]
  have fewer : (without data rest).length ≤ rest.length := List.length_filter_le _ _
  rw [List.nil_append] at final
  rw [represents.length, final.length, toUint, toUint, toUint, Nat.mod_eq_of_lt small,
    Nat.mod_eq_of_lt (Nat.lt_of_le_of_lt fewer small),
    show rest.length + (2 ^ 32 - (without data rest).length) = rest.length - (without data rest).length + 2 ^ 32 by omega,
    Nat.add_mod_right, Nat.mod_eq_of_lt (by omega)]

end RemovingAll

section Stability

variable {compare : D → D → Int}

/-- The comparison is that of a total preorder. -/
structure Consistent (compare : D → D → Int) : Prop where
  total : ∀ a b, compare a b ≤ 0 ∨ compare b a ≤ 0
  trans : ∀ a b c, compare a b ≤ 0 → compare b c ≤ 0 → compare a c ≤ 0

theorem sortItems_eq_mergeSort (consistent : Consistent compare) (links : List (Item D)) :
    sortItems compare links = links.mergeSort (takesFirst compare) := by
  refine halvingSort_eq_mergeSort (fun a b c first second => ?_) (fun a b => ?_) links
  · exact decide_eq_true (consistent.trans _ _ _ (of_decide_eq_true first) (of_decide_eq_true second))
  · rw [Bool.or_eq_true]
    exact (consistent.total a.2 b.2).imp decide_eq_true decide_eq_true

end Stability

end Xpl.Collections
