import MagnumDB.Storage.BTree
import MagnumDB.Storage.NodeProof

/-!
# Reading any page as a node

`Node::from_page` checks the lengths that it finds in a page before it takes anything, so it returns
whatever the page holds. The node is no larger than the page, and an internal node has more children
than keys.

The last point rests on the order of the two loops. Either the loop over the children has found one more
than the page says there are keys, or it has stopped at the end of the page, and then no key is read at
all.
-/

namespace MagnumDB

open ByteString

theorem Page.slice_of_le (page : Page) {a b : Nat} (hab : a ≤ b) (hb : b ≤ pageSize) :
    ∃ bs, page.slice a b = .ok bs ∧ bs.length = b - a := by
  refine ⟨ByteString.slice page.data a b, if_pos ⟨hab, hb⟩, ?_⟩
  unfold ByteString.slice
  rw [List.length_take, List.length_drop, page.size_eq]
  omega

/-- A block is inside the page, or there is none. -/
theorem takeBlock_safe (page : Page) (offset : Nat) : takeBlock page offset = .ok none ∨
    ∃ bs, takeBlock page offset = .ok (some (bs, offset + (4 + bs.length))) ∧
      offset + (4 + bs.length) ≤ pageSize := by
  unfold takeBlock
  by_cases hhead : offset + 4 > pageSize
  · rw [if_pos hhead]
    exact .inl rfl
  · rw [if_neg hhead]
    obtain ⟨lenBytes, hlen, -⟩ := Page.slice_of_le page (Nat.le_add_right offset 4)
      (Nat.not_lt.mp hhead)
    rw [hlen]
    dsimp only [bind, Except.bind]
    by_cases hbody : offset + 4 + leNat lenBytes > pageSize
    · rw [if_pos hbody]
      exact .inl rfl
    · obtain ⟨bs, hbs, hbslen⟩ := Page.slice_of_le page
        (Nat.le_add_right (offset + 4) (leNat lenBytes)) (Nat.not_lt.mp hbody)
      rw [Nat.add_sub_cancel_left] at hbslen
      rw [if_neg hbody, hbs]
      refine .inr ⟨bs, ?_, by omega⟩
      rw [hbslen, Nat.add_assoc]
      rfl

variable {page : Page}

theorem takeBlock_of_end {offset : Nat} (hend : offset + 4 > pageSize) :
    takeBlock page offset = .ok none := by
  unfold takeBlock
  rw [if_pos hend]
  rfl

/-- The records that are read take no more than the rest of the page. -/
theorem takeRecords_safe (page : Page) (n : Nat) : ∀ {offset : Nat}, offset ≤ pageSize →
    ∃ rs, takeRecords page n offset = .ok rs ∧ offset + (rs.map recordSize).sum ≤ pageSize := by
  induction n with
  | zero => exact fun hle => ⟨[], rfl, hle⟩
  | succ n ih =>
    intro offset hle
    rw [takeRecords]
    rcases takeBlock_safe page offset with hnone | ⟨key, hkey, hkeyle⟩
    · rw [hnone]
      exact ⟨[], rfl, hle⟩
    · rw [hkey]
      show ∃ rs, (takeBlock page (offset + (4 + key.length)) >>= _) = _ ∧ _
      rcases takeBlock_safe page (offset + (4 + key.length)) with hnone | ⟨val, hval, hvalle⟩
      · -- the value is cut off: the record is left out
        rw [hnone]
        exact ⟨[], rfl, hle⟩
      · rw [hval]
        obtain ⟨rest, hrest, hsum⟩ := ih hvalle
        show ∃ rs, (takeRecords page n _ >>= _) = _ ∧ _
        rw [hrest]
        have hsize : recordSize (key, val) = 4 + key.length + 4 + val.length := rfl
        refine ⟨(key, val) :: rest, rfl, ?_⟩
        rw [List.map_cons, List.sum_cons]
        omega

/-- The loop over the children stops because it has them all, or because the page ends. -/
theorem takeChildren_safe (page : Page) (n : Nat) : ∀ {offset : Nat}, offset ≤ pageSize →
    ∃ children, takeChildren page n offset = .ok (children, offset + children.length * 4) ∧
      offset + children.length * 4 ≤ pageSize ∧
      (children.length = n ∨ pageSize < offset + children.length * 4 + 4) := by
  induction n with
  | zero =>
    intro offset hle
    exact ⟨[], rfl, hle, .inl rfl⟩
  | succ n ih =>
    intro offset hle
    rw [takeChildren]
    by_cases hend : offset + 4 > pageSize
    · rw [if_pos hend]
      exact ⟨[], rfl, hle, .inr hend⟩
    · rw [if_neg hend]
      obtain ⟨bs, hbs, -⟩ := Page.slice_of_le page (Nat.le_add_right offset 4)
        (Nat.not_lt.mp hend)
      obtain ⟨rest, hrest, hin, hwhy⟩ := ih (Nat.not_lt.mp hend)
      rw [hbs]
      rw [hrest]
      have hoff : offset + 4 + rest.length * 4 = offset + (rest.length + 1) * 4 := by omega
      refine ⟨u32FromLeBytes bs :: rest, ?_, ?_, ?_⟩
      · rw [List.length_cons, ← hoff]
        rfl
      · rw [List.length_cons, ← hoff]
        exact hin
      · rw [List.length_cons, ← hoff]
        rcases hwhy with hall | hstop
        · exact .inl (by omega)
        · exact .inr hstop

theorem takeKeys_safe (page : Page) (n : Nat) : ∀ {offset : Nat}, offset ≤ pageSize →
    ∃ ks, takeKeys page n offset = .ok ks ∧ ks.length ≤ n ∧ offset + (ks.map keySize).sum ≤ pageSize := by
  induction n with
  | zero =>
    intro offset hle
    exact ⟨[], rfl, Nat.le_refl 0, hle⟩
  | succ n ih =>
    intro offset hle
    rw [takeKeys]
    rcases takeBlock_safe page offset with hnone | ⟨key, hkey, hkeyle⟩
    · rw [hnone]
      exact ⟨[], rfl, Nat.zero_le _, hle⟩
    · rw [hkey]
      obtain ⟨rest, hrest, hlen, hsum⟩ := ih hkeyle
      show ∃ ks, (takeKeys page n _ >>= _) = _ ∧ _
      rw [hrest]
      refine ⟨key :: rest, rfl, Nat.succ_le_succ hlen, ?_⟩
      rw [List.map_cons, List.sum_cons, keySize]
      omega

/-- At the end of the page there are no keys. -/
theorem takeKeys_of_end {offset : Nat} (hend : offset + 4 > pageSize) (n : Nat) :
    takeKeys page n offset = .ok [] := by
  cases n with
  | zero => rfl
  | succ n =>
    rw [takeKeys, takeBlock_of_end hend]
    rfl

/-- The children and the keys of an internal node, from any page. -/
theorem takeInner_safe (page : Page) (n : Nat) : ∃ children keys,
    takeChildren page (n + 1) 7 = .ok (children, 7 + children.length * 4) ∧
    takeKeys page n (7 + children.length * 4) = .ok keys ∧ keys.length < children.length ∧
    7 + children.length * 4 + (keys.map keySize).sum ≤ pageSize := by
  obtain ⟨children, hchildren, hin, hwhy⟩ :=
    takeChildren_safe page (n + 1) (show 7 ≤ pageSize by decide)
  rcases hwhy with hall | hstop
  · -- there are n + 1 children, and at most n keys
    obtain ⟨keys, hkeys, hlen, hsum⟩ := takeKeys_safe page n hin
    exact ⟨children, keys, hchildren, hkeys, by omega, hsum⟩
  · -- the page ended, but not before the first child
    refine ⟨children, [], hchildren, takeKeys_of_end hstop n, ?_, hin⟩
    have hsize : pageSize = 4096 := rfl
    rw [List.length_nil]
    omega

/-- What any page is read as: a leaf or an internal node, no larger than a page. -/
theorem Node.fromPage_cases (page : Page) :
    (∃ l, Node.fromPage page = .ok (.leaf l) ∧ (Node.leaf l).encodedSize ≤ pageSize) ∨
    ∃ i, Node.fromPage page = .ok (.internal i) ∧ (Node.internal i).encodedSize ≤ pageSize ∧
      i.keys.length < i.children.length := by
  obtain ⟨tag, htag, -⟩ := Page.slice_of_le page (show 0 ≤ 1 by decide) (by decide)
  obtain ⟨count, hcount, -⟩ := Page.slice_of_le page (show 1 ≤ 3 by decide) (by decide)
  obtain ⟨parent, hparent, -⟩ := Page.slice_of_le page (show 3 ≤ 7 by decide) (by decide)
  obtain ⟨next, hnext, -⟩ := Page.slice_of_le page (show 7 ≤ 11 by decide) (by decide)
  unfold Node.fromPage
  rw [htag, hcount, hparent]
  by_cases hleaf : tag = [nodeTypeLeaf]
  · obtain ⟨rs, hrs, hsum⟩ := takeRecords_safe page (leNat count) (show 11 ≤ pageSize by decide)
    refine .inl ⟨⟨optionOfId (u32FromLeBytes parent), optionOfId (u32FromLeBytes next), rs⟩, ?_, hsum⟩
    show (if tag = [nodeTypeLeaf] then _ else _) = _
    rw [if_pos hleaf, hnext]
    rw [hrs]
    rfl
  · obtain ⟨children, keys, hchildren, hkeys, hlt, hsum⟩ := takeInner_safe page (leNat count)
    refine .inr ⟨⟨optionOfId (u32FromLeBytes parent), keys, children⟩, ?_, hsum, hlt⟩
    show (if tag = [nodeTypeLeaf] then _ else _) = _
    rw [if_neg hleaf]
    rw [hchildren]
    show (takeKeys page (leNat count) (7 + children.length * 4) >>= _) = _
    rw [hkeys]
    rfl

/-- A node that was read from a page fits a page. -/
theorem Node.size_le_of_fromPage {n : Node} (hn : Node.fromPage page = .ok n) :
    n.encodedSize ≤ pageSize := by
  rcases Node.fromPage_cases page with ⟨l, hl, hsize⟩ | ⟨i, hi, hsize, -⟩
  · rw [Except.ok.inj (hn.symm.trans hl)]
    exact hsize
  · rw [Except.ok.inj (hn.symm.trans hi)]
    exact hsize

theorem Node.exists_fromPage (page : Page) : ∃ n, Node.fromPage page = .ok n := by
  rcases Node.fromPage_cases page with ⟨l, hl, -⟩ | ⟨i, hi, -⟩
  · exact ⟨_, hl⟩
  · exact ⟨_, hi⟩

end MagnumDB
