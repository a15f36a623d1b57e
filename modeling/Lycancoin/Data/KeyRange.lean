import Mathlib

namespace Lycancoin.Data

/-! Records in the order of their keys, which are lists and are compared from their first element
on.  The records whose keys begin with one tag stand together, and can be read by a search for the
least key with the tag.
-/

namespace KeyRange

variable {α β : Type} [Ord α] {tag : α} {low key : List α}
  {records : List (List α × β)} {record : List α × β}

def seek (low : List α) (records : List (List α × β)) : List (List α × β) :=
  records.dropWhile fun record => compare record.1 low == .lt

/-- The records at the front whose keys begin with the tag. -/
def scan [DecidableEq α] (tag : α) (records : List (List α × β)) : List (List α × β) :=
  records.takeWhile fun record => record.1.head? == some tag

def Ordered (records : List (List α × β)) : Prop :=
  records.Pairwise fun left right => compare left.1 right.1 = .lt

theorem compare_cons (first second : α) (left right : List α) :
    compare (first :: left) (second :: right) =
      (compare first second).then (compare left right) :=
  List.compareLex_cons_cons

theorem compare_replicate_ne_lt {least : α} (isLeast : ∀ element, compare element least ≠ .lt) :
    compare key (List.replicate key.length least) ≠ .lt := by
  induction key with
  | nil => exact fun below => by simp [List.compareLex_nil_nil, compare] at below
  | cons first rest ih =>
      rw [List.length_cons, List.replicate_succ, compare_cons]
      cases order : compare first least with
      | lt => exact absurd order (isLeast first)
      | eq => exact ih
      | gt => exact fun below => by simp at below

theorem mem_seek (member : record ∈ records) (above : compare record.1 low ≠ .lt) :
    record ∈ seek low records := by
  induction records with
  | nil => contradiction
  | cons first rest ih =>
      unfold seek at ih ⊢
      by_cases drop : compare first.1 low = .lt
      · rw [List.dropWhile_cons_of_pos (by simp [drop])]
        cases List.mem_cons.mp member with
        | inl here => exact absurd (here ▸ drop) above
        | inr later => exact ih later
      · rw [List.dropWhile_cons_of_neg (by simp [drop])]
        exact member

theorem mem_of_mem_seek (member : record ∈ seek low records) : record ∈ records :=
  (List.dropWhile_sublist _).mem member

theorem ordered_seek (ordered : Ordered records) : Ordered (seek low records) :=
  ordered.sublist (List.dropWhile_sublist _)

theorem above_of_mem_seek [Std.TransOrd α] (ordered : Ordered records) (member : record ∈ seek low records) :
    compare record.1 low ≠ .lt := by
  intro below
  have sorted := @ordered_seek _ _ _ low _ ordered
  have stops := List.head?_dropWhile_not (fun record => compare record.1 low == .lt) records
  have found : records.dropWhile (fun record => compare record.1 low == .lt) = seek low records := rfl
  rw [found] at stops
  cases records : seek low records with
  | nil => simp [records] at member
  | cons first rest =>
      rw [records] at member sorted stops
      have above : compare first.1 low ≠ .lt := by simpa using stops
      cases List.mem_cons.mp member with
      | inl here => exact above (here ▸ below)
      | inr later =>
          exact above (Std.TransCmp.lt_trans ((List.pairwise_cons.mp sorted).1 record later) below)

variable [Std.LawfulEqOrd α]

theorem head_of_between {upper : List α} (above : compare key (tag :: low) ≠ .lt)
    (below : compare key (tag :: upper) = .lt) : key.head? = some tag := by
  cases key with
  | nil => exact absurd List.compareLex_nil_cons above
  | cons first rest =>
      rw [compare_cons] at above below
      cases order : compare first tag with
      | lt => simp [order] at above
      | eq => rw [Std.LawfulEqOrd.eq_of_compare order, List.head?_cons]
      | gt => simp [order] at below

theorem mem_scan [DecidableEq α] (ordered : Ordered records)
    (above : ∀ record ∈ records, compare record.1 (tag :: low) ≠ .lt) (member : record ∈ records)
    (tagged : record.1.head? = some tag) : record ∈ scan tag records := by
  induction records with
  | nil => contradiction
  | cons first rest ih =>
      obtain ⟨smallest, ordered⟩ := List.pairwise_cons.mp ordered
      obtain ⟨firstAbove, restAbove⟩ := List.forall_mem_cons.mp above
      have firstTagged : first.1.head? = some tag := by
        cases List.mem_cons.mp member with
        | inl here => rw [← here, tagged]
        | inr later =>
            obtain ⟨upper, whole⟩ := List.head?_eq_some_iff.mp tagged
            exact head_of_between firstAbove (whole ▸ smallest record later)
      unfold scan at ih ⊢
      rw [List.takeWhile_cons_of_pos (by simp [firstTagged]), List.mem_cons]
      cases List.mem_cons.mp member with
      | inl here => exact Or.inl here
      | inr later => exact Or.inr (ih ordered restAbove later)

theorem mem_scan_seek [DecidableEq α] [Std.TransOrd α] (ordered : Ordered records) (member : record ∈ records)
    (tagged : record.1.head? = some tag) (least : compare record.1 (tag :: low) ≠ .lt) :
    record ∈ scan tag (seek (tag :: low) records) :=
  mem_scan (ordered_seek ordered) (fun _ found => above_of_mem_seek ordered found)
    (mem_seek member least) tagged

end KeyRange

end Lycancoin.Data
