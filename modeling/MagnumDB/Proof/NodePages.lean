import MagnumDB.Storage.NodeRead

/-!
# Nodes and pages

Two results about the page format of nodes. A node that fits a page is written into the page and
read back as it is (`Node.page_roundTrip`). And whatever a page holds, it can be read
(`Node.fromPage_safe`): the lengths that are found in it are checked before anything is taken, the
node that comes out is no larger than the page, and an internal node has a child for every search key.
-/

namespace MagnumDB

open ByteString

/-! ## Reading any page -/

theorem childIndex_le (keys : List Bytes) (key : Bytes) : childIndex keys key ≤ keys.length :=
  List.findIdx_le_length

/-- **Any page can be read as a node.** No slice is out of range, the node is not larger than a page,
and `find_leaf_for_insert` finds a child for every key. -/
theorem Node.fromPage_safe (page : Page) : ∃ n, Node.fromPage page = .ok n ∧ n.encodedSize ≤ pageSize ∧
    ∀ i, n = .internal i → i.keys.length < i.children.length ∧
      ∀ key, childIndex i.keys key < i.children.length := by
  rcases Node.fromPage_cases page with ⟨l, hl, hsize⟩ | ⟨i, hi, hsize, hlt⟩
  · exact ⟨.leaf l, hl, hsize, nofun⟩
  · refine ⟨.internal i, hi, hsize, ?_⟩
    rintro j hj
    obtain rfl := Node.internal.inj hj
    exact ⟨hlt, fun key => Nat.lt_of_le_of_lt (childIndex_le i.keys key) hlt⟩

/-! ## Writing and reading back -/

/-- **The page format.** A node is written exactly if it fits; nothing is copied beyond the page, since
that would make the program panic; what is behind the node stays zero; and the node is read back. -/
theorem Node.page_roundTrip {n : Node} (hv : n.Valid) :
    ((∃ pg, n.toPage = .ok pg) ↔ n.encodedSize ≤ pageSize) ∧ n.toPage ≠ .error .panic ∧
      ∀ pg, n.toPage = .ok pg → Node.fromPage pg = .ok n ∧
        pg.data = n.encode ++ List.replicate (pageSize - n.encodedSize) 0 := by
  by_cases hfit : n.encodedSize ≤ pageSize
  · obtain ⟨pg, hpg, hdata⟩ := Node.toPage_of_fits hfit
    rw [Node.encode_length] at hdata
    refine ⟨iff_of_true ⟨pg, hpg⟩ hfit, ?_, ?_⟩
    · rw [hpg]
      exact nofun
    · intro pg' hpg'
      obtain rfl : pg = pg' := Except.ok.inj (hpg.symm.trans hpg')
      exact ⟨Node.fromPage_toPage hv hpg, hdata⟩
  · have herr := Node.toPage_of_not_fits hfit
    refine ⟨iff_of_false ?_ hfit, ?_, ?_⟩
    · rintro ⟨pg, hpg⟩
      rw [herr] at hpg
      exact nomatch hpg
    · rw [herr]
      exact nofun
    · intro pg hpg
      rw [herr] at hpg
      exact nomatch hpg

/-- A leaf with two records, and the pointers of its neighbours. -/
theorem Node.page_roundTrip_leaf :
    let n := Node.leaf ⟨some 3, none, [([1], [2, 3]), ([4], [])]⟩
    ((∃ pg, n.toPage = .ok pg) ↔ n.encodedSize ≤ pageSize) ∧ n.toPage ≠ .error .panic ∧
      ∀ pg, n.toPage = .ok pg → Node.fromPage pg = .ok n ∧
        pg.data = n.encode ++ List.replicate (pageSize - n.encodedSize) 0 := by
  intro n
  exact Node.page_roundTrip (n := n) ⟨by decide, by decide⟩

end MagnumDB
