import Mathlib

/-!
# Byte memory

A memory maps addresses to bytes.  Words of four bytes are stored in
little-endian order.  A range is a start address with a length; a store changes
no byte outside its range, so whatever is kept in ranges apart from it stays as
it is.  Linked lists whose links are stored in their nodes are described by the
list of their addresses.
-/

namespace MachFormal.Library

/-! ## Ranges -/

/-- A start address and a length. -/
abbrev Range := Nat × Nat

/-- The address belongs to the range. -/
def Range.Has (r : Range) (x : Nat) : Prop :=
  r.1 ≤ x ∧ x < r.1 + r.2

/-- The ranges have no address in common, one lies before the other. -/
def Apart (r q : Range) : Prop :=
  r.1 + r.2 ≤ q.1 ∨ q.1 + q.2 ≤ r.1

def Within (r q : Range) : Prop :=
  q.1 ≤ r.1 ∧ r.1 + r.2 ≤ q.1 + q.2

section Ranges

variable {r q o : Range} {x : Nat}

theorem Apart.symm (h : Apart r q) : Apart q r :=
  Or.symm h

instance : Std.Symm Apart :=
  ⟨fun _ _ => Apart.symm⟩

instance (r q : Range) : Decidable (Apart r q) :=
  inferInstanceAs (Decidable (_ ∨ _))

theorem Apart.mono (h : Apart q o) (hr : Within r q) : Apart r o := by
  unfold Apart Within at *
  omega

theorem Within.refl (r : Range) : Within r r :=
  ⟨Nat.le_refl _, Nat.le_refl _⟩

theorem Within.trans (hr : Within r q) (hq : Within q o) : Within r o := by
  unfold Within at *
  omega

theorem Apart.not_has (h : Apart r q) (hx : r.Has x) : ¬ q.Has x := by
  unfold Apart Range.Has at *
  omega

theorem Within.has (h : Within r q) (hx : r.Has x) : q.Has x := by
  unfold Within Range.Has at *
  omega

/-- Ranges inside old ones are apart from whatever the old ones were apart from. -/
theorem pairwise_apart_refine {old new others : List Range}
    (hold : (old ++ others).Pairwise Apart) (hnew : new.Pairwise Apart)
    (hwithin : ∀ r ∈ new, ∃ q ∈ old, Within r q) : (new ++ others).Pairwise Apart := by
  rw [List.pairwise_append] at hold ⊢
  refine ⟨hnew, hold.2.1, fun r hr o ho => ?_⟩
  obtain ⟨q, hq, hrq⟩ := hwithin r hr
  exact (hold.2.2 q hq o ho).mono hrq

end Ranges

/-! ## Words -/

abbrev Mem := Nat → UInt8

def load (mem : Mem) (a : Nat) : Nat :=
  (mem a).toNat + 256 * ((mem (a + 1)).toNat + 256 * ((mem (a + 2)).toNat +
    256 * (mem (a + 3)).toNat))

def store (mem : Mem) (a v : Nat) : Mem := fun x =>
  if x = a then UInt8.ofNat v
  else if x = a + 1 then UInt8.ofNat (v / 256)
  else if x = a + 2 then UInt8.ofNat (v / 65536)
  else if x = a + 3 then UInt8.ofNat (v / 16777216)
  else mem x

/-- The bytes of a range are the same in both memories. -/
def SameOn (r : Range) (mem mem' : Mem) : Prop :=
  ∀ x, r.Has x → mem' x = mem x

section Words

variable {mem mem' mem'' : Mem} {a b v : Nat} {r q : Range}

theorem load_store (mem : Mem) (a : Nat) (hv : v < 2 ^ 32) : load (store mem a v) a = v := by
  have h1 : a + 1 ≠ a := by omega
  have h2 : a + 2 ≠ a := by omega
  have h3 : a + 3 ≠ a := by omega
  have h21 : a + 2 ≠ a + 1 := by omega
  have h31 : a + 3 ≠ a + 1 := by omega
  have h32 : a + 3 ≠ a + 2 := by omega
  simp only [load, store, if_true, if_neg h1, if_neg h2, if_neg h3, if_neg h21, if_neg h31,
    if_neg h32, UInt8.toNat_ofNat']
  omega

theorem store_of_not_has {x : Nat} (h : ¬ Range.Has (a, 4) x) : store mem a v x = mem x := by
  have h0 : x ≠ a := fun heq => h (by unfold Range.Has; simp only; omega)
  have h1 : x ≠ a + 1 := fun heq => h (by unfold Range.Has; simp only; omega)
  have h2 : x ≠ a + 2 := fun heq => h (by unfold Range.Has; simp only; omega)
  have h3 : x ≠ a + 3 := fun heq => h (by unfold Range.Has; simp only; omega)
  simp only [store, if_neg h0, if_neg h1, if_neg h2, if_neg h3]

theorem sameOn_store (h : Apart r (a, 4)) (mem : Mem) (v : Nat) : SameOn r mem (store mem a v) :=
  fun _ hx => store_of_not_has (h.not_has hx)

theorem SameOn.refl (r : Range) (mem : Mem) : SameOn r mem mem :=
  fun _ _ => rfl

theorem SameOn.trans (h : SameOn r mem mem') (h' : SameOn r mem' mem'') : SameOn r mem mem'' :=
  fun x hx => (h' x hx).trans (h x hx)

theorem SameOn.load (h : SameOn r mem mem') (ha : Within (a, 4) r) : load mem' a = load mem a := by
  have hbyte : ∀ k < 4, mem' (a + k) = mem (a + k) := by
    intro k hk
    refine h _ (ha.has ?_)
    unfold Range.Has
    simp only
    omega
  have h0 : mem' a = mem a := hbyte 0 (by omega)
  simp only [Library.load, h0, hbyte 1 (by omega), hbyte 2 (by omega), hbyte 3 (by omega)]

theorem load_lt (mem : Mem) (a : Nat) : load mem a < 2 ^ 32 := by
  have h0 := (mem a).toNat_lt
  have h1 := (mem (a + 1)).toNat_lt
  have h2 := (mem (a + 2)).toNat_lt
  have h3 := (mem (a + 3)).toNat_lt
  unfold load
  omega

end Words

/-! ## Linked lists -/

/-- From the address `h` the links lead through the given nodes to 0. -/
def Chain (mem : Mem) : Nat → List Nat → Prop
  | h, [] => h = 0
  | h, node :: rest => h = node ∧ node ≠ 0 ∧ Chain mem (load mem node) rest

section Chains

variable {mem mem' : Mem} {h node : Nat} {nodes : List Nat}

theorem Chain.congr (hchain : Chain mem h nodes)
    (hsame : ∀ node ∈ nodes, load mem' node = load mem node) : Chain mem' h nodes := by
  induction nodes generalizing h with
  | nil => exact hchain
  | cons node rest ih =>
      obtain ⟨hhead, hne, hrest⟩ := hchain
      refine ⟨hhead, hne, ?_⟩
      rw [hsame node List.mem_cons_self]
      exact ih hrest (fun n hn => hsame n (List.mem_cons_of_mem node hn))

/-- The empty list is the one that starts at 0. -/
theorem Chain.eq_nil_iff (hchain : Chain mem h nodes) : h = 0 ↔ nodes = [] := by
  cases nodes with
  | nil => exact ⟨fun _ => rfl, fun _ => hchain⟩
  | cons node rest =>
      obtain ⟨rfl, hne, -⟩ := hchain
      exact ⟨fun hzero => absurd hzero hne, fun hnil => by cases hnil⟩

/-- Store the head in a new node, and make the node the head. -/
theorem Chain.push (hchain : Chain mem h nodes) (hh : h < 2 ^ 32) (hne : node ≠ 0)
    (hapart : ∀ n ∈ nodes, Apart (n, 4) (node, 4)) :
    Chain (store mem node h) node (node :: nodes) := by
  refine ⟨rfl, hne, ?_⟩
  rw [load_store mem node hh]
  refine hchain.congr (fun n hn => ?_)
  exact (sameOn_store (hapart n hn) mem h).load (Within.refl _)

end Chains

end MachFormal.Library
