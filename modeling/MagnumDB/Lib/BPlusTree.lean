import Mathlib.Data.List.Perm.Basic
import Mathlib.Data.List.Flatten
import MagnumDB.Lib.SortedAssoc

/-!
# B+ trees of uniform height

Trees whose records all sit at the same depth, with the identifier of the place
each node is stored at. The height is in the type, so "all leaves at the same
depth" needs no invariant, and everything is by induction on the height.

The order invariant is stated on the in-order traversal, separators included: a
record is strictly above every record before it and not below a separator before
it; a separator is strictly above everything before it. A split that pushes a
separator up does not change the traversal at all, which is why this form of the
invariant survives a cascade of splits without any work. Only splitting a leaf
adds something to the traversal: the new separator.

A context (`Ctx`) is a tree with a hole, read from the hole upwards, which is the
direction in which a split climbs.
-/

namespace BPlus

open SortedAssoc List

/-- A leaf: where it is stored and its records. -/
structure Leaf (P K V : Type) where
  id : P
  recs : List (K × V)

/-- An inner node: where it is stored, its separators and its subtrees. -/
structure Branch (P K T : Type) where
  id : P
  keys : List K
  kids : List T

/-- A tree of height `d`. The height is an index, so that all leaves are at one depth. -/
def PlusTree (P K V : Type) : Nat → Type
  | 0 => Leaf P K V
  | d + 1 => Branch P K (PlusTree P K V d)

/-- An element of the in-order traversal. -/
inductive Item (K V : Type) where
  | sep (k : K)
  | rcd (k : K) (v : V)

variable {P K V α β : Type}

/-! ## Weaving separators and subtrees -/

/-- `c₁ k₁ c₂ k₂ ...`: what lies to the left of a child. -/
def weaveL (f : α → List β) (g : K → β) : List K → List α → List β
  | k :: ks, c :: cs => f c ++ g k :: weaveL f g ks cs
  | _, _ => []

/-- `k₁ c₁ k₂ c₂ ...`: what lies to the right of a child. -/
def weaveR (f : α → List β) (g : K → β) : List K → List α → List β
  | k :: ks, c :: cs => g k :: f c ++ weaveR f g ks cs
  | _, _ => []

/-- `c₀ k₁ c₁ k₂ c₂ ...`: a whole node. -/
def weave (f : α → List β) (g : K → β) (ks : List K) : List α → List β
  | [] => []
  | c :: cs => f c ++ weaveR f g ks cs

section Weave

variable {f : α → List β} {g : K → β}

theorem weaveR_append (ks₂ : List K) (cs₂ : List α) : ∀ {ks₁ : List K} {cs₁ : List α},
    ks₁.length = cs₁.length →
    weaveR f g (ks₁ ++ ks₂) (cs₁ ++ cs₂) = weaveR f g ks₁ cs₁ ++ weaveR f g ks₂ cs₂
  | [], [], _ => rfl
  | [], _ :: _, h => absurd h (by simp)
  | _ :: _, [], h => absurd h (by simp)
  | k :: ks₁, c :: cs₁, h => by
    have ih := weaveR_append ks₂ cs₂ (Nat.succ.inj h)
    simp only [cons_append, weaveR, ih, append_assoc]

/-- A node seen from one of its children. -/
theorem weave_split (ks₂ : List K) (c : α) (cs₂ : List α) : ∀ {ks₁ : List K} {cs₁ : List α},
    ks₁.length = cs₁.length →
    weave f g (ks₁ ++ ks₂) (cs₁ ++ c :: cs₂)
      = weaveL f g ks₁ cs₁ ++ (f c ++ weaveR f g ks₂ cs₂)
  | [], [], _ => rfl
  | [], _ :: _, h => absurd h (by simp)
  | _ :: _, [], h => absurd h (by simp)
  | k :: ks₁, c₁ :: cs₁, h => by
    have hl : ks₁.length = cs₁.length := Nat.succ.inj h
    have ih := weave_split ks₂ c cs₂ hl
    -- the head child moves to the left part, the rest is the shorter node
    cases cs₁ with
    | nil =>
      have hk : ks₁ = [] := length_eq_zero_iff.mp hl
      subst hk
      simp [weave, weaveL, weaveR]
    | cons c₂ cs₁ =>
      simp only [weave, weaveL, weaveR, cons_append, append_assoc] at ih ⊢
      rw [ih]

theorem weave_cut {ks₁ ks₂ : List K} {cs₁ cs₂ : List α} {k : K}
    (h₁ : cs₁.length = ks₁.length + 1) (h₂ : cs₂ ≠ []) :
    weave f g (ks₁ ++ k :: ks₂) (cs₁ ++ cs₂)
      = weave f g ks₁ cs₁ ++ g k :: weave f g ks₂ cs₂ := by
  cases cs₁ with
  | nil => exact absurd h₁ (by simp)
  | cons c₁ cs₁ =>
    cases cs₂ with
    | nil => exact absurd rfl h₂
    | cons c₂ cs₂ =>
      have hl : ks₁.length = cs₁.length := by simpa using h₁.symm
      simp only [weave, cons_append, weaveR_append _ _ hl, weaveR, append_assoc]

theorem mem_weaveL : ∀ {ks : List K} {cs : List α}, ks.length = cs.length → ∀ {k : K}, k ∈ ks →
    g k ∈ weaveL f g ks cs
  | [], _, _, _, hk => absurd hk (by simp)
  | _ :: _, [], h, _, _ => absurd h (by simp)
  | k :: ks, c :: cs, h, k', hk => by
    refine mem_append_right _ ?_
    rcases mem_cons.mp hk with hk | hk
    · rw [hk]; exact mem_cons_self ..
    · exact mem_cons_of_mem _ (mem_weaveL (Nat.succ.inj h) hk)

theorem mem_weaveR : ∀ {ks : List K} {cs : List α}, ks.length = cs.length → ∀ {k : K}, k ∈ ks →
    g k ∈ weaveR f g ks cs
  | [], _, _, _, hk => absurd hk (by simp)
  | _ :: _, [], h, _, _ => absurd h (by simp)
  | k :: ks, c :: cs, h, k', hk => by
    rcases mem_cons.mp hk with hk | hk
    · rw [hk]; exact mem_cons_self ..
    · exact mem_cons_of_mem _ (mem_append_right _ (mem_weaveR (Nat.succ.inj h) hk))

end Weave

/-! ## Reading a tree -/

namespace PlusTree

def leaf (id : P) (recs : List (K × V)) : PlusTree P K V 0 :=
  Leaf.mk id recs

def node {d : Nat} (id : P) (keys : List K) (kids : List (PlusTree P K V d)) : PlusTree P K V (d + 1) :=
  Branch.mk id keys kids

theorem exists_leaf (t : PlusTree P K V 0) : ∃ id recs, t = leaf id recs :=
  ⟨Leaf.id t, Leaf.recs t, rfl⟩

theorem exists_node {d : Nat} (t : PlusTree P K V (d + 1)) : ∃ id keys kids, t = node id keys kids :=
  ⟨Branch.id t, Branch.keys t, Branch.kids t, rfl⟩

/-- Induction on a tree: what holds of the subtrees of a node may be used for the node. -/
@[elab_as_elim]
theorem inductionOn {motive : {d : Nat} → PlusTree P K V d → Prop}
    (leaf : ∀ id recs, motive (leaf id recs))
    (node : ∀ {d : Nat} (id : P) (keys : List K) (kids : List (PlusTree P K V d)),
      (∀ c ∈ kids, motive c) → motive (node id keys kids)) :
    ∀ {d : Nat} (t : PlusTree P K V d), motive t
  | 0, t => leaf (Leaf.id t) (Leaf.recs t)
  | _ + 1, t => node (Branch.id t) (Branch.keys t) (Branch.kids t) (fun c _ => inductionOn leaf node c)

/-- Where the top node is stored. -/
def id : {d : Nat} → PlusTree P K V d → P
  | 0, t => Leaf.id t
  | _ + 1, t => Branch.id t

/-- The in-order traversal. -/
def inorder : {d : Nat} → PlusTree P K V d → List (Item K V)
  | 0, t => (Leaf.recs t).map (fun r => Item.rcd r.1 r.2)
  | _ + 1, t => weave inorder Item.sep (Branch.keys t) (Branch.kids t)

/-- The leaves, left to right. -/
def leaves : {d : Nat} → PlusTree P K V d → List (Leaf P K V)
  | 0, t => [⟨Leaf.id t, Leaf.recs t⟩]
  | _ + 1, t => (Branch.kids t).flatMap leaves

/-- Everything the tree occupies: its nodes, and what its records own besides. -/
def owned (own : V → List P) : {d : Nat} → PlusTree P K V d → List P
  | 0, t => Leaf.id t :: (Leaf.recs t).flatMap (fun r => own r.2)
  | _ + 1, t => Branch.id t :: (Branch.kids t).flatMap (owned own)

/-- Every inner node has one subtree more than separators. -/
def Shaped : {d : Nat} → PlusTree P K V d → Prop
  | 0, _ => True
  | _ + 1, t => (Branch.kids t).length = (Branch.keys t).length + 1 ∧ ∀ c ∈ Branch.kids t, Shaped c

section
variable {d : Nat} (i : P) (recs : List (K × V)) (keys : List K) (kids : List (PlusTree P K V d))
  (own : V → List P)

@[simp] theorem id_node : (node i keys kids).id = i := rfl
@[simp] theorem inorder_leaf : (leaf i recs).inorder = recs.map (fun r => Item.rcd r.1 r.2) := rfl
@[simp] theorem inorder_node : (node i keys kids).inorder = weave inorder Item.sep keys kids := rfl
@[simp] theorem leaves_leaf : (leaf i recs).leaves = [⟨i, recs⟩] := rfl
@[simp] theorem leaves_node : (node i keys kids).leaves = kids.flatMap leaves := rfl
@[simp] theorem owned_leaf : (leaf i recs).owned own = i :: recs.flatMap (fun r => own r.2) := rfl
@[simp] theorem owned_node : (node i keys kids).owned own = i :: kids.flatMap (owned own) := rfl

end

@[simp]
theorem shaped_node {d : Nat} {i : P} {keys : List K} {kids : List (PlusTree P K V d)} :
    (node i keys kids).Shaped ↔ kids.length = keys.length + 1 ∧ ∀ c ∈ kids, c.Shaped :=
  Iff.rfl

end PlusTree

/-- The records in a traversal. -/
def recordsOf (l : List (Item K V)) : List (K × V) :=
  l.filterMap (fun x => match x with | .sep _ => none | .rcd k v => some (k, v))

/-- The records of a tree, in order. -/
def PlusTree.records {d : Nat} (t : PlusTree P K V d) : List (K × V) := recordsOf t.inorder

@[simp] theorem recordsOf_append (l m : List (Item K V)) :
    recordsOf (l ++ m) = recordsOf l ++ recordsOf m := filterMap_append ..

@[simp] theorem recordsOf_sep (k : K) (l : List (Item K V)) :
    recordsOf (.sep k :: l) = recordsOf l := rfl

@[simp] theorem recordsOf_nil : recordsOf ([] : List (Item K V)) = [] := rfl

@[simp] theorem recordsOf_rcds (l : List (K × V)) :
    recordsOf (l.map (fun r => Item.rcd r.1 r.2)) = l := by
  induction l with
  | nil => rfl
  | cons r l ih =>
    show (r.1, r.2) :: recordsOf (l.map fun r => Item.rcd r.1 r.2) = r :: l
    rw [ih]

theorem mem_recordsOf {l : List (Item K V)} {r : K × V} :
    r ∈ recordsOf l ↔ Item.rcd r.1 r.2 ∈ l := by
  unfold recordsOf
  rw [mem_filterMap]
  constructor
  · rintro ⟨x, hx, he⟩
    cases x with
    | sep k => exact absurd he (by simp)
    | rcd k v => simp only [Option.some.injEq] at he; subst he; exact hx
  · intro h; exact ⟨_, h, rfl⟩

variable {d : Nat}

theorem recordsOf_weaveR : ∀ {cs : List (PlusTree P K V d)} {ks : List K},
    (∀ c ∈ cs, c.records = c.leaves.flatMap Leaf.recs) → cs.length = ks.length →
      recordsOf (weaveR PlusTree.inorder Item.sep ks cs) = (cs.flatMap PlusTree.leaves).flatMap Leaf.recs
  | [], [], _, _ => rfl
  | [], _ :: _, _, _ => rfl
  | _ :: _, [], _, hl => absurd hl (by simp)
  | c :: cs, k :: ks, hc, hl => by
    have hrec : recordsOf c.inorder = c.leaves.flatMap Leaf.recs := hc c (mem_cons_self ..)
    have hrest := recordsOf_weaveR (fun x hx => hc x (mem_cons_of_mem _ hx))
      (Nat.succ.inj hl)
    simp only [weaveR, cons_append, recordsOf_sep, recordsOf_append, hrec, hrest,
      flatMap_cons, flatMap_append]

theorem recordsOf_weaveL : ∀ {cs : List (PlusTree P K V d)} {ks : List K},
    (∀ c ∈ cs, c.records = c.leaves.flatMap Leaf.recs) → ks.length = cs.length →
      recordsOf (weaveL PlusTree.inorder Item.sep ks cs) = (cs.flatMap PlusTree.leaves).flatMap Leaf.recs
  | [], [], _, _ => rfl
  | [], _ :: _, _, _ => rfl
  | _ :: _, [], _, hl => absurd hl (by simp)
  | c :: cs, k :: ks, hc, hl => by
    have hrec : recordsOf c.inorder = c.leaves.flatMap Leaf.recs := hc c (mem_cons_self ..)
    have hrest := recordsOf_weaveL (fun x hx => hc x (mem_cons_of_mem _ hx))
      (Nat.succ.inj hl)
    simp only [weaveL, recordsOf_sep, recordsOf_append, hrec, hrest, flatMap_cons,
      flatMap_append]

/-- The records of a tree are those of its leaves, in order. -/
theorem PlusTree.records_eq_leaves (t : PlusTree P K V d) (hs : t.Shaped) :
    t.records = t.leaves.flatMap Leaf.recs := by
  induction t using PlusTree.inductionOn with
  | leaf id recs =>
    simp [PlusTree.records]
  | node id keys kids ih =>
    obtain ⟨hlen, hkids⟩ := PlusTree.shaped_node.mp hs
    cases kids with
    | nil => rfl
    | cons c cs =>
      have hc : recordsOf c.inorder = c.leaves.flatMap Leaf.recs :=
        ih c (mem_cons_self ..) (hkids c (mem_cons_self ..))
      have hr := recordsOf_weaveR (fun x hx => ih x (mem_cons_of_mem _ hx)
        (hkids x (mem_cons_of_mem _ hx))) (Nat.succ.inj hlen)
      rw [PlusTree.records, PlusTree.inorder_node, PlusTree.leaves_node, weave, recordsOf_append, hc, hr,
        flatMap_cons, flatMap_append]

theorem PlusTree.leaves_ne_nil (t : PlusTree P K V d) (hs : t.Shaped) : t.leaves ≠ [] := by
  induction t using PlusTree.inductionOn with
  | leaf id recs => exact cons_ne_nil _ _
  | node id keys kids ih =>
    obtain ⟨hlen, hkids⟩ := PlusTree.shaped_node.mp hs
    cases kids with
    | nil => exact absurd hlen (by simp)
    | cons c cs =>
      intro hnil
      rw [PlusTree.leaves_node, flatMap_cons, append_eq_nil_iff] at hnil
      exact ih c (mem_cons_self ..) (hkids c (mem_cons_self ..)) hnil.1

/-! ## Order -/

section Order

variable [LinearOrder K]

/-- `x` may stand before `y` in a traversal. -/
def Item.before : Item K V → Item K V → Prop
  | .sep a, .sep b => a < b
  | .sep a, .rcd b _ => a ≤ b
  | .rcd a _, .sep b => a < b
  | .rcd a _, .rcd b _ => a < b

/-- A record with key `k` may stand after `x`. -/
def Item.below (k : K) : Item K V → Prop
  | .sep a => a ≤ k
  | .rcd a _ => a < k

/-- A record with key `k` may stand before `x`. -/
def Item.above (k : K) : Item K V → Prop
  | .sep a => k < a
  | .rcd a _ => k < a

/-- The traversal is in order: records strictly increase, and a separator is above what
precedes it and not above what follows. -/
def Ordered (l : List (Item K V)) : Prop := l.Pairwise Item.before

variable {k : K} {l : List (Item K V)}

theorem Item.before_rcd {v : V} {x : Item K V} : x.before (.rcd k v) ↔ x.below k := by
  cases x <;> exact Iff.rfl

theorem Item.rcd_before {v : V} {x : Item K V} : (Item.rcd k v).before x ↔ x.above k := by
  cases x <;> exact Iff.rfl

theorem sorted_recordsOf (h : Ordered l) : Sorted (recordsOf l) := by
  unfold Sorted recordsOf
  rw [pairwise_filterMap]
  refine List.Pairwise.imp ?_ h
  intro x y hxy r hr s hs
  cases x with
  | sep a => exact absurd hr (by simp)
  | rcd a v =>
    cases y with
    | sep b => exact absurd hs (by simp)
    | rcd b w =>
      simp only [Option.some.injEq] at hr hs
      subst hr; subst hs
      exact hxy

theorem allBelow_recordsOf (h : ∀ x ∈ l, x.below k) :
    AllBelow k (recordsOf l) := fun _ hr => h _ (mem_recordsOf.mp hr)

theorem allAbove_recordsOf (h : ∀ x ∈ l, x.above k) :
    AllAbove k (recordsOf l) := fun _ hr => h _ (mem_recordsOf.mp hr)

/-- Replacing the middle of a traversal by records that respect what is around it. -/
theorem ordered_mid {m r : List (Item K V)} :
    Ordered (l ++ (m ++ r)) ↔ Ordered l ∧ Ordered m ∧ Ordered r ∧
      (∀ x ∈ l, ∀ y ∈ m, x.before y) ∧ (∀ x ∈ l, ∀ y ∈ r, x.before y) ∧
      (∀ x ∈ m, ∀ y ∈ r, x.before y) := by
  unfold Ordered
  rw [pairwise_append, pairwise_append]
  constructor
  · rintro ⟨hl, ⟨hm, hr, hmr⟩, hlmr⟩
    exact ⟨hl, hm, hr, fun x hx y hy => hlmr x hx y (mem_append_left _ hy),
      fun x hx y hy => hlmr x hx y (mem_append_right _ hy), hmr⟩
  · rintro ⟨hl, hm, hr, hlm, hlr, hmr⟩
    refine ⟨hl, ⟨hm, hr, hmr⟩, fun x hx y hy => ?_⟩
    rcases mem_append.mp hy with hy | hy
    · exact hlm x hx y hy
    · exact hlr x hx y hy

/-- A separator may be put between two records, with the key of the second one. -/
theorem ordered_insert_sep {a b : List (Item K V)} {k' : K} {v v' : V}
    (h : Ordered ((a ++ [.rcd k' v']) ++ .rcd k v :: b)) :
    Ordered ((a ++ [.rcd k' v']) ++ .sep k :: .rcd k v :: b) := by
  obtain ⟨ha, hb, hab⟩ := pairwise_append.mp h
  have hlt : k' < k := hab _ (mem_append_right _ (mem_singleton.mpr rfl)) _
    (mem_cons_self ..)
  have hlast := (pairwise_append.mp ha).2.2
  obtain ⟨hk, _⟩ := pairwise_cons.mp hb
  refine pairwise_append.mpr ⟨ha, pairwise_cons.mpr ⟨?_, hb⟩, ?_⟩
  · intro y hy
    rcases mem_cons.mp hy with hy | hy
    · rw [hy]; exact le_refl k
    · have hky := hk y hy
      cases y with
      | sep c => exact hky
      | rcd c w => exact le_of_lt hky
  · intro x hx y hy
    rcases mem_cons.mp hy with hy | hy
    · rw [hy]
      -- strictly below: either the record before, or something before that record
      rcases mem_append.mp hx with hx | hx
      · have hxk := hlast x hx _ (mem_singleton.mpr rfl)
        cases x with
        | sep c => exact lt_of_le_of_lt hxk hlt
        | rcd c w => exact lt_trans hxk hlt
      · rw [mem_singleton.mp hx]; exact hlt
    · exact hab x hx y hy

end Order

/-! ## Contexts -/

/-- A tree of height `h` with a hole for a tree of height `d`, from the hole upwards. A frame is
an inner node without the child the hole is in. -/
inductive Ctx (P K V : Type) : Nat → Nat → Type where
  | top {h : Nat} : Ctx P K V h h
  | frame {d h : Nat} (id : P) (ks₁ : List K) (cs₁ : List (PlusTree P K V d)) (ks₂ : List K)
      (cs₂ : List (PlusTree P K V d)) (up : Ctx P K V (d + 1) h) : Ctx P K V d h

namespace Ctx

/-- Put a tree into the hole. -/
def plug : {d h : Nat} → Ctx P K V d h → PlusTree P K V d → PlusTree P K V h
  | _, _, .top, t => t
  | _, _, .frame id ks₁ cs₁ ks₂ cs₂ up, t => plug up (.node id (ks₁ ++ ks₂) (cs₁ ++ t :: cs₂))

/-- The traversal to the left of the hole. -/
def left : {d h : Nat} → Ctx P K V d h → List (Item K V)
  | _, _, .top => []
  | _, _, .frame _ ks₁ cs₁ _ _ up => left up ++ weaveL PlusTree.inorder Item.sep ks₁ cs₁

/-- The traversal to the right of the hole. -/
def right : {d h : Nat} → Ctx P K V d h → List (Item K V)
  | _, _, .top => []
  | _, _, .frame _ _ _ ks₂ cs₂ up => weaveR PlusTree.inorder Item.sep ks₂ cs₂ ++ right up

/-- The leaves to the left of the hole. -/
def leavesL : {d h : Nat} → Ctx P K V d h → List (Leaf P K V)
  | _, _, .top => []
  | _, _, .frame _ _ cs₁ _ _ up => leavesL up ++ cs₁.flatMap PlusTree.leaves

/-- The leaves to the right of the hole. -/
def leavesR : {d h : Nat} → Ctx P K V d h → List (Leaf P K V)
  | _, _, .top => []
  | _, _, .frame _ _ _ _ cs₂ up => cs₂.flatMap PlusTree.leaves ++ leavesR up

/-- Everything the context occupies. -/
def owned (own : V → List P) : {d h : Nat} → Ctx P K V d h → List P
  | _, _, .top => []
  | _, _, .frame id _ cs₁ _ cs₂ up =>
    id :: (cs₁.flatMap (PlusTree.owned own) ++ (cs₂.flatMap (PlusTree.owned own) ++ owned own up))

/-- Every frame has as many separators as children on each side of the hole. -/
def Shaped : {d h : Nat} → Ctx P K V d h → Prop
  | _, _, .top => True
  | _, _, .frame _ ks₁ cs₁ ks₂ cs₂ up =>
    ks₁.length = cs₁.length ∧ ks₂.length = cs₂.length ∧ (∀ c ∈ cs₁, c.Shaped) ∧
      (∀ c ∈ cs₂, c.Shaped) ∧ Shaped up

/-- The number of frames: how far the hole is below the root. -/
def depth : {d h : Nat} → Ctx P K V d h → Nat
  | _, _, .top => 0
  | _, _, .frame _ _ _ _ _ up => depth up + 1

/-- Where the node above the hole is stored. -/
def parent : {d h : Nat} → Ctx P K V d h → Option P
  | _, _, .top => none
  | _, _, .frame id _ _ _ _ _ => some id

/-- The separators of the nodes above the hole, nearest first. -/
def path : {d h : Nat} → Ctx P K V d h → List (List K)
  | _, _, .top => []
  | _, _, .frame _ ks₁ _ ks₂ _ up => (ks₁ ++ ks₂) :: path up

theorem depth_eq : ∀ {d h : Nat} (ctx : Ctx P K V d h), ctx.depth + d = h
  | _, _, .top => Nat.zero_add _
  | d, h, .frame _ _ _ _ _ up => by
    have ih := depth_eq up
    show up.depth + 1 + d = h
    omega

theorem plug_shaped : ∀ {d h : Nat} (ctx : Ctx P K V d h) (t : PlusTree P K V d), ctx.Shaped →
    t.Shaped → (ctx.plug t).Shaped
  | _, _, .top, _, _, ht => ht
  | _, _, .frame id ks₁ cs₁ ks₂ cs₂ up, t, hs, ht => by
    obtain ⟨h1, h2, hc1, hc2, hup⟩ := hs
    refine plug_shaped up _ hup (PlusTree.shaped_node.mpr ⟨?_, fun c hc => ?_⟩)
    · simp only [length_append, length_cons]
      omega
    · rcases mem_append.mp hc with hc | hc
      · exact hc1 c hc
      · rcases mem_cons.mp hc with hc | hc
        · rw [hc]; exact ht
        · exact hc2 c hc

theorem plug_inorder : ∀ {d h : Nat} (ctx : Ctx P K V d h) (t : PlusTree P K V d), ctx.Shaped →
    (ctx.plug t).inorder = ctx.left ++ (t.inorder ++ ctx.right)
  | _, _, .top, t, _ => by
    show t.inorder = [] ++ (t.inorder ++ [])
    rw [append_nil, nil_append]
  | _, _, .frame id ks₁ cs₁ ks₂ cs₂ up, t, hs => by
    obtain ⟨h1, _, _, _, hup⟩ := hs
    have ih := plug_inorder up (.node id (ks₁ ++ ks₂) (cs₁ ++ t :: cs₂)) hup
    rw [plug, ih, PlusTree.inorder_node, weave_split ks₂ t cs₂ h1]
    simp only [left, right, append_assoc]

theorem plug_leaves : ∀ {d h : Nat} (ctx : Ctx P K V d h) (t : PlusTree P K V d),
    (ctx.plug t).leaves = ctx.leavesL ++ (t.leaves ++ ctx.leavesR)
  | _, _, .top, t => by
    show t.leaves = [] ++ (t.leaves ++ [])
    rw [append_nil, nil_append]
  | _, _, .frame id ks₁ cs₁ ks₂ cs₂ up, t => by
    have ih := plug_leaves up (.node id (ks₁ ++ ks₂) (cs₁ ++ t :: cs₂))
    rw [plug, ih, PlusTree.leaves_node, flatMap_append, flatMap_cons]
    simp only [leavesL, leavesR, append_assoc]

theorem left_records : ∀ {d h : Nat} (ctx : Ctx P K V d h), ctx.Shaped →
    recordsOf ctx.left = ctx.leavesL.flatMap Leaf.recs
  | _, _, .top, _ => rfl
  | _, _, .frame _ ks₁ cs₁ _ _ up, hs => by
    obtain ⟨h1, _, hc1, _, hup⟩ := hs
    rw [left, leavesL, recordsOf_append, flatMap_append, left_records up hup,
      recordsOf_weaveL (fun c hc => c.records_eq_leaves (hc1 c hc)) h1]

theorem right_records : ∀ {d h : Nat} (ctx : Ctx P K V d h), ctx.Shaped →
    recordsOf ctx.right = ctx.leavesR.flatMap Leaf.recs
  | _, _, .top, _ => rfl
  | _, _, .frame _ _ _ ks₂ cs₂ up, hs => by
    obtain ⟨_, h2, _, hc2, hup⟩ := hs
    rw [right, leavesR, recordsOf_append, flatMap_append, right_records up hup,
      recordsOf_weaveR (fun c hc => c.records_eq_leaves (hc2 c hc)) h2.symm]

theorem plug_records {d h : Nat} (ctx : Ctx P K V d h) (t : PlusTree P K V d) (hs : ctx.Shaped) :
    (ctx.plug t).records = recordsOf ctx.left ++ (t.records ++ recordsOf ctx.right) := by
  rw [PlusTree.records, plug_inorder ctx t hs, recordsOf_append, recordsOf_append, PlusTree.records]

/-- What a plugged tree occupies, up to order. -/
theorem plug_owned (own : V → List P) : ∀ {d h : Nat} (ctx : Ctx P K V d h) (t : PlusTree P K V d),
    ((ctx.plug t).owned own).Perm (t.owned own ++ ctx.owned own)
  | _, _, .top, t => by
    show (t.owned own).Perm (t.owned own ++ [])
    rw [append_nil]
  | _, _, .frame id ks₁ cs₁ ks₂ cs₂ up, t => by
    have ih := plug_owned own up (.node id (ks₁ ++ ks₂) (cs₁ ++ t :: cs₂))
    refine ih.trans ?_
    rw [PlusTree.owned_node, flatMap_append, flatMap_cons, owned, cons_append]
    -- move the hole's part to the front, past the node itself and its left siblings
    refine List.Perm.trans ?_ perm_middle.symm
    refine List.Perm.cons _ ?_
    rw [append_assoc, append_assoc]
    exact perm_append_comm_assoc ..

/-- The root of a plugged tree only depends on where the plug is stored. -/
theorem plug_id : ∀ {d h : Nat} (ctx : Ctx P K V d h) {t t' : PlusTree P K V d}, t.id = t'.id →
    (ctx.plug t).id = (ctx.plug t').id
  | _, _, .top, _, _, h => h
  | _, _, .frame _ _ _ _ _ up, _, _, _ => by
    rw [plug, plug]
    exact plug_id up rfl

/-! ## Searching -/

section Search

variable [LinearOrder K]

/-- A record with key `k` belongs into the hole. -/
def Located (k : K) {d h : Nat} (ctx : Ctx P K V d h) : Prop :=
  (∀ x ∈ ctx.left, x.below k) ∧ (∀ x ∈ ctx.right, x.above k)

theorem located_top (k : K) {h : Nat} : Located k (Ctx.top : Ctx P K V h h) :=
  ⟨fun _ hx => absurd hx (by simp [left]), fun _ hx => absurd hx (by simp [right])⟩

variable {k : K}

theorem weaveL_below {f : α → List (Item K V)} : ∀ {ks : List K} {cs : List α},
    Ordered (weaveL f Item.sep ks cs) → (∀ s ∈ ks, s ≤ k) →
    ∀ x ∈ weaveL f Item.sep ks cs, x.below k
  | [], _, _, _, x, hx => absurd hx (by simp [weaveL])
  | _ :: _, [], _, _, x, hx => absurd hx (by simp [weaveL])
  | s :: ks, c :: cs, ho, hk, x, hx => by
    have hs : s ≤ k := hk s (mem_cons_self ..)
    obtain ⟨_, hrest, hcross⟩ := pairwise_append.mp ho
    rcases mem_append.mp hx with hx | hx
    · -- in the child: below the separator that closes it
      have hb := hcross x hx _ (mem_cons_self ..)
      cases x with
      | sep a => exact le_of_lt (lt_of_lt_of_le hb hs)
      | rcd a v => exact lt_of_lt_of_le hb hs
    · rcases mem_cons.mp hx with hx | hx
      · rw [hx]; exact hs
      · exact weaveL_below (pairwise_cons.mp hrest).2
          (fun s' hs' => hk s' (mem_cons_of_mem _ hs')) x hx

theorem weaveR_above {f : α → List (Item K V)} {ks : List K} {cs : List α}
    (ho : Ordered (weaveR f Item.sep ks cs)) (hk : ∀ s ∈ ks.head?, k < s) :
    ∀ x ∈ weaveR f Item.sep ks cs, x.above k := by
  cases ks with
  | nil => intro x hx; exact absurd hx (by simp [weaveR])
  | cons s ks =>
    cases cs with
    | nil => intro x hx; exact absurd hx (by simp [weaveR])
    | cons c cs =>
      have hs : k < s := hk s rfl
      have hhead := (pairwise_cons.mp ho).1
      intro x hx
      rcases mem_cons.mp hx with hx | hx
      · rw [hx]; exact hs
      · have hb := hhead x hx
        cases x with
        | sep a => exact lt_trans hs hb
        | rcd a v => exact lt_of_lt_of_le hs hb

omit [LinearOrder K] in
theorem findIdx_split (p : K → Bool) : ∀ (ks : List K), ∃ ks₁ ks₂, ks = ks₁ ++ ks₂ ∧
    ks₁.length = ks.findIdx p ∧ (∀ s ∈ ks₁, p s = false) ∧ (∀ s ∈ ks₂.head?, p s)
  | [] => ⟨[], [], rfl, rfl, by simp, by simp⟩
  | s :: ks => by
    by_cases hs : p s
    · exact ⟨[], s :: ks, rfl, by simp [findIdx_cons, hs], by simp, by simp [hs]⟩
    · have hs' : p s = false := by simpa using hs
      obtain ⟨ks₁, ks₂, he, hl, h1, h2⟩ := findIdx_split p ks
      refine ⟨s :: ks₁, ks₂, by rw [he, cons_append], ?_, ?_, h2⟩
      · simp [findIdx_cons, hs', hl]
      · intro x hx
        rcases mem_cons.mp hx with hx | hx
        · rw [hx]; exact hs'
        · exact h1 x hx

/-- **One step of a search.** The child before the first separator above `k` is where a record
with key `k` belongs. -/
theorem descend {d h : Nat} {ctx : Ctx P K V (d + 1) h} {id : P} {keys : List K}
    {kids : List (PlusTree P K V d)} (hs : (PlusTree.node id keys kids).Shaped) (hcs : ctx.Shaped)
    (ho : Ordered (ctx.plug (.node id keys kids)).inorder) (hloc : ctx.Located k) :
    ∃ ks₁ cs₁ c ks₂ cs₂, keys = ks₁ ++ ks₂ ∧ kids = cs₁ ++ c :: cs₂ ∧
      cs₁.length = keys.findIdx (fun s => decide (k < s)) ∧ c.Shaped ∧
      (Ctx.frame id ks₁ cs₁ ks₂ cs₂ ctx).Shaped ∧
      (Ctx.frame id ks₁ cs₁ ks₂ cs₂ ctx).Located k := by
  obtain ⟨hlen, hkids⟩ := PlusTree.shaped_node.mp hs
  obtain ⟨ks₁, ks₂, hks, hk1, hlo, hhi⟩ := findIdx_split (fun s => decide (k < s)) keys
  have hlen' : kids.length = ks₁.length + ks₂.length + 1 := by
    rw [hlen, hks, length_append]
  -- cut the children where the separators were cut
  obtain ⟨cs₁, rest, hcut, hcl⟩ : ∃ cs₁ rest, kids = cs₁ ++ rest ∧ cs₁.length = ks₁.length :=
    ⟨kids.take ks₁.length, kids.drop ks₁.length, (take_append_drop ..).symm, by
      rw [length_take]; omega⟩
  subst hcut
  cases rest with
  | nil => simp at hlen'; omega
  | cons c cs₂ =>
    have hl2 : ks₂.length = cs₂.length := by simp at hlen'; omega
    rw [plug_inorder ctx _ hcs, PlusTree.inorder_node, hks, weave_split ks₂ c cs₂ hcl.symm] at ho
    have hmid := (ordered_mid.mp ho).2.1
    obtain ⟨hL, _, hR, _, _, _⟩ := ordered_mid.mp hmid
    refine ⟨ks₁, cs₁, c, ks₂, cs₂, hks, rfl, by rw [hcl, hk1], ?_, ?_, ?_, ?_⟩
    · exact hkids c (mem_append_right _ (mem_cons_self ..))
    · exact ⟨hcl.symm, hl2, fun x hx => hkids x (mem_append_left _ hx),
        fun x hx => hkids x (mem_append_right _ (mem_cons_of_mem _ hx)), hcs⟩
    · intro x hx
      rcases mem_append.mp hx with hx | hx
      · exact hloc.1 x hx
      · exact weaveL_below hL (fun s hs => not_lt.mp (of_decide_eq_false (hlo s hs))) x hx
    · intro x hx
      rcases mem_append.mp hx with hx | hx
      · exact weaveR_above hR (fun s hs => of_decide_eq_true (hhi s hs)) x hx
      · exact hloc.2 x hx

end Search

end Ctx

end BPlus
