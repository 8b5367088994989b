import MagnumDB.Storage.Node

/-!
# What a node page holds

`Node.encode` says which bytes a node stands for, without cursors. Writing a node
that fits puts exactly these bytes at the front of a blank page, and reading the
page gives the node back, so the tree proofs never look inside a page again: they
use `toPage_of_fits`, `toPage_of_not_fits` and `fromPage_toPage`.
-/

namespace MagnumDB

open ByteString List

/-! ## The bytes of a node -/

/-- A length-prefixed byte string. -/
def encodeBlock (bs : Bytes) : Bytes := leBytes 4 bs.length ++ bs

def encodeRecord (r : Bytes × Bytes) : Bytes := encodeBlock r.1 ++ encodeBlock r.2

/-- The bytes of a node, in page order. -/
def Node.encode : Node → Bytes
  | .leaf l =>
    [nodeTypeLeaf] ++ (leBytes 2 l.records.length ++ (u32ToLeBytes (l.parentPageId.getD u32Max) ++
      (u32ToLeBytes (l.nextLeaf.getD u32Max) ++ l.records.flatMap encodeRecord)))
  | .internal i =>
    [nodeTypeInternal] ++ (leBytes 2 i.keys.length ++ (u32ToLeBytes (i.parentPageId.getD u32Max) ++
      (i.children.flatMap u32ToLeBytes ++ i.keys.flatMap encodeBlock)))

@[simp] theorem encodeBlock_length (bs : Bytes) : (encodeBlock bs).length = 4 + bs.length := by
  simp [encodeBlock]

@[simp] theorem encodeRecord_length (r : Bytes × Bytes) : (encodeRecord r).length = recordSize r := by
  simp [encodeRecord, recordSize]; omega

theorem flatMap_length_eq_sum {α : Type} {f : α → Bytes} {g : α → Nat} (h : ∀ a, (f a).length = g a)
    (l : List α) : (l.flatMap f).length = (l.map g).sum := by
  induction l with
  | nil => rfl
  | cons a l ih => simp [h, ih]

theorem flatMap_u32_length (l : List PageId) : (l.flatMap u32ToLeBytes).length = l.length * 4 := by
  induction l with
  | nil => rfl
  | cons a l ih => simp [ih]; omega

/-- `encoded_size` is the number of bytes written. -/
theorem Node.encode_length (n : Node) : n.encode.length = n.encodedSize := by
  cases n with
  | leaf l =>
    simp only [Node.encode, Node.encodedSize, length_append, length_singleton,
      leBytes_length, u32ToLeBytes_length, flatMap_length_eq_sum encodeRecord_length]
    unfold leafHeaderSize; omega
  | internal i =>
    simp only [Node.encode, Node.encodedSize, length_append, length_singleton,
      leBytes_length, u32ToLeBytes_length, flatMap_u32_length,
      flatMap_length_eq_sum encodeBlock_length]
    show _ = internalHeaderSize + i.children.length * 4 + (i.keys.map fun k => 4 + k.length).sum
    unfold internalHeaderSize; omega

/-! ## Writing -/

/-- The cursor has written `bs` into a blank page and nothing else. -/
def Cursor.Wrote (c : Cursor) (bs : Bytes) : Prop :=
  c.1.data = bs ++ List.replicate (pageSize - bs.length) 0 ∧ c.2 = bs.length

theorem Cursor.wrote_start : Cursor.Wrote (Page.default, 0) [] := ⟨rfl, rfl⟩

/-- A step that writes these bytes if there is room for them. -/
def Writes (f : Cursor → Except Fail Cursor) (xs : Bytes) : Prop :=
  ∀ ⦃c : Cursor⦄ ⦃bs : Bytes⦄, c.Wrote bs → bs.length + xs.length ≤ pageSize →
    ∃ c', f c = .ok c' ∧ c'.Wrote (bs ++ xs)

theorem Writes.nil : Writes pure [] := by
  intro c bs h _
  exact ⟨c, rfl, by rwa [append_nil]⟩

theorem Writes.seq {f g : Cursor → Except Fail Cursor} {xs ys : Bytes} (hf : Writes f xs) (hg : Writes g ys) :
    Writes (fun c => f c >>= g) (xs ++ ys) := by
  intro c bs h hfit
  rw [length_append] at hfit
  obtain ⟨c₁, e₁, w₁⟩ := hf h (by omega)
  obtain ⟨c₂, e₂, w₂⟩ := hg w₁ (by rw [length_append]; omega)
  exact ⟨c₂, (Except.bind_of_ok e₁).trans e₂, by rwa [← append_assoc]⟩

theorem writes_put (xs : Bytes) : Writes (Cursor.put xs) xs := by
  intro c bs ⟨hdata, hoff⟩ hfit
  have hb : c.2 + xs.length ≤ pageSize := by omega
  refine ⟨(c.1.copied c.2 xs hb, c.2 + xs.length), ?_, ?_, ?_⟩
  · unfold Cursor.put Page.copyFromSlice
    rw [dif_pos hb]
    rfl
  · show overwrite c.1.data c.2 xs = _
    rw [hdata, overwrite_append hoff, drop_replicate, length_append]
    congr 2
    omega
  · show c.2 + xs.length = _
    rw [hoff, length_append]

/-- A length and as many bytes. -/
theorem writes_block (bs : Bytes) {f : Cursor → Except Fail Cursor} {xs : Bytes} (hf : Writes f xs) :
    Writes (fun c => c.put (leBytes 4 bs.length) >>= fun c => c.put bs >>= f) (encodeBlock bs ++ xs) := by
  rw [encodeBlock, append_assoc]
  exact (writes_put _).seq ((writes_put bs).seq hf)

theorem writes_putRecords (rs : List (Bytes × Bytes)) : Writes (putRecords rs) (rs.flatMap encodeRecord) := by
  induction rs with
  | nil => exact Writes.nil
  | cons r rs ih =>
    rw [flatMap_cons, encodeRecord, append_assoc]
    exact writes_block r.1 (writes_block r.2 ih)

theorem writes_putChildren (cs : List PageId) : Writes (putChildren cs) (cs.flatMap u32ToLeBytes) := by
  induction cs with
  | nil => exact Writes.nil
  | cons c cs ih => exact (writes_put (u32ToLeBytes c)).seq ih

theorem writes_putKeys (ks : List Bytes) : Writes (putKeys ks) (ks.flatMap encodeBlock) := by
  induction ks with
  | nil => exact Writes.nil
  | cons k ks ih => exact writes_block k ih

variable {n : Node} {p : Page}

theorem Node.toPage_of_fits (h : n.encodedSize ≤ pageSize) :
    ∃ pg, n.toPage = .ok pg ∧
      pg.data = n.encode ++ List.replicate (pageSize - n.encode.length) 0 := by
  have hno : ¬ n.encodedSize > pageSize := Nat.not_lt.mpr h
  have hfit : ([] : Bytes).length + n.encode.length ≤ pageSize := by
    rwa [length_nil, Nat.zero_add, n.encode_length]
  cases n with
  | leaf l =>
    obtain ⟨c, hc, hw⟩ := (writes_put [nodeTypeLeaf]).seq ((writes_put (leBytes 2 l.records.length)).seq
      ((writes_put (u32ToLeBytes (l.parentPageId.getD u32Max))).seq
        ((writes_put (u32ToLeBytes (l.nextLeaf.getD u32Max))).seq (writes_putRecords l.records))))
      Cursor.wrote_start hfit
    have hpage := Except.bind_of_ok (f := fun c : Cursor => pure c.1) hc
    simp only [bind_assoc] at hpage
    unfold Node.toPage
    rw [if_neg hno]
    exact ⟨c.1, hpage, hw.1⟩
  | internal i =>
    obtain ⟨c, hc, hw⟩ := (writes_put [nodeTypeInternal]).seq ((writes_put (leBytes 2 i.keys.length)).seq
      ((writes_put (u32ToLeBytes (i.parentPageId.getD u32Max))).seq
        ((writes_putChildren i.children).seq (writes_putKeys i.keys)))) Cursor.wrote_start hfit
    have hpage := Except.bind_of_ok (f := fun c : Cursor => pure c.1) hc
    simp only [bind_assoc] at hpage
    unfold Node.toPage
    rw [if_neg hno]
    exact ⟨c.1, hpage, hw.1⟩

theorem Node.toPage_of_not_fits (h : ¬ n.encodedSize ≤ pageSize) :
    n.toPage = .error (.err (.nodeTooLarge n.encodedSize pageSize)) := by
  unfold Node.toPage
  rw [if_pos (Nat.lt_of_not_le h)]
  rfl

/-! ## Reading -/

/-- What a page holds from an offset on. -/
def Page.Ahead (p : Page) (offset : Nat) (bs : Bytes) : Prop :=
  ∃ xs, xs.length = offset ∧ p.data = xs ++ bs

variable {a b : Nat} {bs ys zs : Bytes}

theorem Page.Ahead.slice (h : p.Ahead a (ys ++ zs)) (hb : a + ys.length = b) :
    b ≤ pageSize ∧ p.slice a b = .ok ys ∧ p.Ahead b zs := by
  obtain ⟨xs, rfl, hd⟩ := h
  have hlen := congrArg List.length hd
  rw [p.size_eq, length_append, length_append] at hlen
  refine ⟨by omega, ?_, xs ++ ys, by rw [length_append, hb], by rw [hd, append_assoc]⟩
  unfold Page.slice
  rw [if_pos ⟨by omega, by omega⟩, hd, slice_mid rfl hb.symm]

/-- A block is read back, and the offset moves past it. -/
theorem Page.Ahead.block (h : p.Ahead a (encodeBlock bs ++ zs)) :
    takeBlock p a = .ok (some (bs, a + 4 + bs.length)) ∧ p.Ahead (a + 4 + bs.length) zs := by
  rw [encodeBlock, append_assoc] at h
  obtain ⟨-, hlen, h⟩ := h.slice (b := a + 4) (by rw [leBytes_length])
  obtain ⟨hin, hbs, h⟩ := h.slice rfl
  have hsmall : bs.length < 256 ^ 4 := by
    have : pageSize < 256 ^ 4 := by decide
    omega
  refine ⟨?_, h⟩
  unfold takeBlock
  rw [if_neg (by omega), Except.bind_of_ok hlen, leNat_leBytes_of_lt hsmall]
  rw [if_neg (by omega), Except.bind_of_ok hbs]
  rfl

theorem takeRecords_eq {rs : List (Bytes × Bytes)} (h : p.Ahead a (rs.flatMap encodeRecord ++ zs)) :
    takeRecords p rs.length a = .ok rs := by
  induction rs generalizing a with
  | nil => rfl
  | cons r rs ih =>
    rw [flatMap_cons, encodeRecord, append_assoc, append_assoc] at h
    obtain ⟨hkey, h⟩ := h.block
    obtain ⟨hval, h⟩ := h.block
    rw [length_cons, takeRecords, Except.bind_of_ok hkey]
    show (takeBlock p _ >>= _) = _
    rw [Except.bind_of_ok hval]
    exact (Except.bind_of_ok (ih h)).trans rfl

theorem takeChildren_eq {cs : List PageId} (h : p.Ahead a (cs.flatMap u32ToLeBytes ++ zs)) :
    takeChildren p cs.length a = .ok (cs, a + cs.length * 4) ∧ p.Ahead (a + cs.length * 4) zs := by
  induction cs generalizing a with
  | nil => exact ⟨rfl, h⟩
  | cons c cs ih =>
    rw [flatMap_cons, append_assoc] at h
    obtain ⟨hin, hc, h⟩ := h.slice (b := a + 4) (by rw [u32ToLeBytes_length])
    obtain ⟨hcs, h⟩ := ih h
    rw [show a + 4 + cs.length * 4 = a + (c :: cs).length * 4 by rw [length_cons]; omega] at hcs h
    refine ⟨?_, h⟩
    rw [length_cons, takeChildren, if_neg (by omega), Except.bind_of_ok hc, u32FromLeBytes_toLeBytes,
      Except.bind_of_ok hcs]
    rfl

theorem takeKeys_eq {ks : List Bytes} (h : p.Ahead a (ks.flatMap encodeBlock ++ zs)) :
    takeKeys p ks.length a = .ok ks := by
  induction ks generalizing a with
  | nil => rfl
  | cons k ks ih =>
    rw [flatMap_cons, append_assoc] at h
    obtain ⟨hkey, h⟩ := h.block
    rw [length_cons, takeKeys, Except.bind_of_ok hkey]
    exact (Except.bind_of_ok (ih h)).trans rfl

/-- The nodes whose pages can be told apart from others: no pointer is `u32::MAX`, which on
disk means "none", and an internal node has one child more than it has keys. -/
def Node.Valid : Node → Prop
  | .leaf l => l.parentPageId ≠ some u32Max ∧ l.nextLeaf ≠ some u32Max
  | .internal i => i.parentPageId ≠ some u32Max ∧ i.children.length = i.keys.length + 1

theorem optionOfId_getD {o : Option PageId} (h : o ≠ some u32Max) :
    optionOfId (o.getD u32Max) = o := by
  unfold optionOfId
  cases o with
  | none => exact if_pos rfl
  | some id =>
    have hid : id ≠ u32Max := fun he => h (he ▸ rfl)
    rw [Option.getD_some, if_neg hid]

theorem sum_map_ge {α : Type} {f : α → Nat} {m : Nat} (h : ∀ a, m ≤ f a) (l : List α) :
    l.length * m ≤ (l.map f).sum := by
  induction l with
  | nil => simp
  | cons a l ih =>
    have := h a
    simp only [length_cons, map_cons, sum_cons, Nat.add_mul]
    omega

/-- A page holds far fewer than `2 ^ 16` records or keys. -/
theorem Node.count_lt (h : n.encodedSize ≤ pageSize) :
    (match n with | .leaf l => l.records.length | .internal i => i.keys.length) < 256 ^ 2 := by
  cases n with
  | leaf l =>
    have hs := sum_map_ge (f := recordSize) (m := 8) (fun r => by unfold recordSize; omega) l.records
    simp only [Node.encodedSize, pageSize] at h ⊢
    omega
  | internal i =>
    have hs := sum_map_ge (f := keySize) (m := 4) (fun k => by unfold keySize; omega) i.keys
    simp only [Node.encodedSize, pageSize] at h ⊢
    omega

/-- **Node pages round-trip.** -/
theorem Node.fromPage_toPage {pg : Page} (hv : n.Valid) (h : n.toPage = .ok pg) :
    Node.fromPage pg = .ok n := by
  have hfit : n.encodedSize ≤ pageSize := by
    by_contra hno
    rw [Node.toPage_of_not_fits hno] at h
    exact absurd h (by simp)
  have hcount := Node.count_lt hfit
  obtain ⟨pg', hpg', hdata⟩ := Node.toPage_of_fits hfit
  have hpg : pg' = pg := by rw [h] at hpg'; exact (Except.ok.inj hpg').symm
  subst hpg
  have h : pg'.Ahead 0 (n.encode ++ _) := ⟨[], rfl, hdata⟩
  cases n with
  | leaf l =>
    simp only [Node.encode, append_assoc] at h
    obtain ⟨-, htype, h⟩ := h.slice (b := 1) rfl
    obtain ⟨-, hnum, h⟩ := h.slice (b := 3) rfl
    obtain ⟨-, hparent, h⟩ := h.slice (b := 7) rfl
    obtain ⟨-, hnext, h⟩ := h.slice (b := 11) rfl
    unfold Node.fromPage
    rw [Except.bind_of_ok htype, Except.bind_of_ok hnum, Except.bind_of_ok hparent, if_pos rfl,
      Except.bind_of_ok hnext, leNat_leBytes_of_lt hcount, Except.bind_of_ok (takeRecords_eq h),
      u32FromLeBytes_toLeBytes, u32FromLeBytes_toLeBytes, optionOfId_getD hv.1,
      optionOfId_getD hv.2]
    rfl
  | internal i =>
    simp only [Node.encode, append_assoc] at h
    obtain ⟨-, htype, h⟩ := h.slice (b := 1) rfl
    obtain ⟨-, hnum, h⟩ := h.slice (b := 3) rfl
    obtain ⟨-, hparent, h⟩ := h.slice (b := 7) rfl
    obtain ⟨hchildren, h⟩ := takeChildren_eq h
    rw [hv.2] at hchildren h
    unfold Node.fromPage
    rw [Except.bind_of_ok htype, Except.bind_of_ok hnum, Except.bind_of_ok hparent, if_neg (by decide),
      leNat_leBytes_of_lt hcount, Except.bind_of_ok hchildren, u32FromLeBytes_toLeBytes,
      optionOfId_getD hv.1]
    exact (Except.bind_of_ok (takeKeys_eq h)).trans rfl

end MagnumDB
