import FixedPool.Proofs.Buddy.Links
import Mathlib.Data.List.Nodup
import Mathlib.Logic.Function.Basic

/-!
The free lists of a pool. The links of the blocks of a list name their neighbours in it; `push` and
`erase` change the links of three blocks at most, and leave the links of a list that is longer or
shorter by one block.
-/

namespace FixedPool

/-! ### Linked lists -/

/-- The links of the listed nodes name the node before and the one behind each of them, where
`before` and `after` stand at the two ends. -/
def Threaded (links : Nat → Option Nat × Option Nat) (before after : Option Nat) :
    List Nat → Prop
  | [] => True
  | node :: rest =>
    links node = (before, rest.head?.or after) ∧ Threaded links (some node) after rest

namespace Threaded

variable {f g : Nat → Option Nat × Option Nat} {before before' after after' : Option Nat}
  {xs ys : List Nat} {i : Nat}

theorem congr (h : Threaded f before after xs) (hg : ∀ i ∈ xs, g i = f i) :
    Threaded g before after xs := by
  induction xs generalizing before with
  | nil => trivial
  | cons i xs ih =>
    obtain ⟨hi, hxs⟩ := h
    refine ⟨(hg i List.mem_cons_self).trans hi, ih hxs ?_⟩
    intro j hj
    exact hg j (List.mem_cons_of_mem i hj)

/-- The order of a list determines the links in it. -/
theorem unique (hf : Threaded f before after xs) (hg : Threaded g before after xs) :
    ∀ i ∈ xs, f i = g i := by
  induction xs generalizing before with
  | nil => exact fun i hi => nomatch hi
  | cons j xs ih =>
    obtain ⟨hj, hf⟩ := hf
    obtain ⟨hj', hg⟩ := hg
    intro i hi
    obtain rfl | hi := List.mem_cons.1 hi
    · exact hj.trans hj'.symm
    · exact ih hf hg i hi

theorem append : Threaded f before after (xs ++ ys) ↔
    Threaded f before (ys.head?.or after) xs ∧ Threaded f (xs.getLast?.or before) after ys := by
  induction xs generalizing before with
  | nil => simp only [List.nil_append, Threaded, true_and, List.getLast?_nil, Option.none_or]
  | cons i xs ih =>
    have hh : (xs ++ ys).head?.or after = xs.head?.or (ys.head?.or after) := by
      rw [List.head?_append, Option.or_assoc]
    have hl : (i :: xs).getLast?.or before = xs.getLast?.or (some i) := by
      rw [List.getLast?_cons]
      cases xs.getLast? <;> rfl
    rw [List.cons_append, Threaded, Threaded, ih, hh, hl, and_assoc]

theorem relink_before (h : Threaded f before after xs) (hn : xs.Nodup)
    (hg : ∀ i ∈ xs, g i = if xs.head? = some i then (before', (f i).2) else f i) :
    Threaded g before' after xs := by
  cases xs with
  | nil => trivial
  | cons i xs =>
    obtain ⟨hi, hxs⟩ := h
    obtain ⟨hm, hn⟩ := List.nodup_cons.1 hn
    refine ⟨?_, hxs.congr ?_⟩
    · rw [hg i List.mem_cons_self, if_pos List.head?_cons, hi]
    · intro j hj
      rw [hg j (List.mem_cons_of_mem i hj), List.head?_cons, if_neg]
      intro he
      cases he
      exact hm hj

theorem relink_after (h : Threaded f before after xs) (hn : xs.Nodup)
    (hg : ∀ i ∈ xs, g i = if xs.getLast? = some i then ((f i).1, after') else f i) :
    Threaded g before after' xs := by
  obtain rfl | ⟨zs, k, rfl⟩ := xs.eq_nil_or_concat
  · trivial
  · rw [List.concat_eq_append] at h hn hg ⊢
    obtain ⟨hz, hk, -⟩ := append.1 h
    have hl : (zs ++ [k]).getLast? = some k := List.getLast?_concat
    rw [hl] at hg
    refine append.2 ⟨hz.congr ?_, ?_, trivial⟩
    · intro j hj
      have hjk : j ≠ k := List.nodup_append.1 hn |>.2.2 j hj k (List.mem_singleton_self k)
      rw [hg j (List.mem_append_left _ hj), if_neg (fun he => hjk (Option.some.inj he).symm)]
    · rw [hg k (List.mem_append_right _ (List.mem_singleton_self k)), if_pos rfl, hk]
      rfl

end Threaded

/-- The indices of the free blocks, tier by tier. -/
abbrev FreeLists := Nat → List Nat

namespace FreeLists

def Lists (F : FreeLists) (b : Block) : Prop := b.index ∈ F b.tier

def push (F : FreeLists) (b : Block) : FreeLists :=
  Function.update F b.tier (b.index :: F b.tier)

def drop (F : FreeLists) (b : Block) : FreeLists :=
  Function.update F b.tier ((F b.tier).erase b.index)

variable {F : FreeLists} {a b : Block} {k : Nat}

theorem push_self (F : FreeLists) (b : Block) : F.push b b.tier = b.index :: F b.tier :=
  Function.update_self ..

theorem push_of_ne (F : FreeLists) (h : k ≠ b.tier) : F.push b k = F k :=
  Function.update_of_ne h ..

theorem drop_of_ne (F : FreeLists) (h : k ≠ b.tier) : F.drop b k = F k :=
  Function.update_of_ne h ..

theorem nodup_drop (hn : ∀ tier, (F tier).Nodup) (b : Block) (tier : Nat) :
    (F.drop b tier).Nodup := by
  rw [drop, Function.update_apply]
  split
  · exact (hn _).erase _
  · exact hn tier

theorem lists_push : (F.push b).Lists a ↔ a = b ∨ F.Lists a := by
  obtain ⟨tier, i⟩ := a
  obtain ⟨tier', j⟩ := b
  rw [Lists, Lists, push]
  by_cases ht : tier = tier'
  · subst ht
    rw [Function.update_self, List.mem_cons, Block.mk.injEq, eq_self, true_and]
  · rw [Function.update_of_ne ht, Block.mk.injEq, eq_false ht, false_and, false_or]

theorem lists_drop (hn : (F b.tier).Nodup) : (F.drop b).Lists a ↔ F.Lists a ∧ a ≠ b := by
  obtain ⟨tier, i⟩ := a
  obtain ⟨tier', j⟩ := b
  rw [Lists, Lists, drop]
  by_cases ht : tier = tier'
  · subst ht
    have he : (⟨tier, i⟩ : Block) = ⟨tier, j⟩ ↔ i = j := by
      rw [Block.mk.injEq, eq_self, true_and]
    rw [Function.update_self, hn.mem_erase_iff, and_comm, ne_eq, ne_eq, he]
  · rw [Function.update_of_ne ht, ne_eq, Block.mk.injEq, eq_false ht, false_and, not_false_eq_true,
      and_true]

theorem lists_of_drop (h : (F.drop b).Lists a) : F.Lists a := by
  rw [Lists, drop, Function.update_apply] at h
  split at h
  next ht =>
    rw [Lists, ht]
    exact List.mem_of_mem_erase h
  next => exact h

theorem drop_push (F : FreeLists) (b : Block) : (F.push b).drop b = F := by
  rw [drop, push, Function.update_self, List.erase_cons_head, Function.update_idem,
    Function.update_eq_self]

theorem push_drop {rest : List Nat} (h : F b.tier = b.index :: rest) : (F.drop b).push b = F := by
  rw [drop, h, List.erase_cons_head, push, Function.update_self, Function.update_idem, ← h,
    Function.update_eq_self]

theorem lists_of_cons {tier i : Nat} {rest : List Nat} (hf : F tier = i :: rest) :
    F.Lists ⟨tier, i⟩ := by
  rw [Lists, hf]
  exact List.mem_cons_self

section split

variable {xs ys : List Nat} {j : Nat}

theorem lists_before (hs : F b.tier = xs ++ b.index :: ys) (hj : j ∈ xs) :
    F.Lists ⟨b.tier, j⟩ := by
  rw [Lists, hs]
  exact List.mem_append_left _ hj

theorem lists_behind (hs : F b.tier = xs ++ b.index :: ys) (hj : j ∈ ys) :
    F.Lists ⟨b.tier, j⟩ := by
  rw [Lists, hs]
  exact List.mem_append_right _ (List.mem_cons_of_mem _ hj)

theorem drop_self (hn : (F b.tier).Nodup) (hs : F b.tier = xs ++ b.index :: ys) :
    F.drop b b.tier = xs ++ ys := by
  rw [hs, List.nodup_middle, List.nodup_cons, List.mem_append, not_or] at hn
  rw [drop, Function.update_self, hs, List.erase_append_right _ hn.1.1, List.erase_cons_head]

end split

end FreeLists

namespace Buddy

variable {p q : Buddy} {a b : Block} {F : FreeLists} {xs ys : List Nat} {tier : Nat}
  {written : Nat → Prop}

/-- The links in the free blocks thread the lists, whose blocks have nothing in common. -/
structure Threads (p : Buddy) (F : FreeLists) : Prop extends p.Shaped where
  holds : ∀ b, F.Lists b → p.tiers.Holds b
  apart : ∀ a b, F.Lists a → F.Lists b → a.Meets b → a = b
  nodup : ∀ tier, (F tier).Nodup
  head : ∀ tier, tier < p.tiers.count → p.heads[tier]? = some (F tier).head?
  thread : ∀ tier, Threaded (fun i => p.linkAt ⟨tier, i⟩) none none (F tier)

/-- A byte of a listed block. -/
def Listed (p : Buddy) (F : FreeLists) (offset : Nat) : Prop :=
  ∃ a, F.Lists a ∧ (p.tiers.span a).Has offset

/-- The link of a neighbour to the block before it, where there is such a neighbour. -/
def relinkBefore (p : Buddy) (tier : Nat) (neighbour link : Option Nat) : Buddy :=
  match neighbour with
  | none => p
  | some index => p.withLink (p.tiers.node ⟨tier, index⟩) link

/-- The link of a neighbour, or of the list head, to the block behind it. -/
def relinkBehind (p : Buddy) (tier : Nat) (neighbour link : Option Nat) : Buddy :=
  match neighbour with
  | none => p.withHead tier link
  | some index => p.withLink (p.tiers.node ⟨tier, index⟩ + 4) link

/-! ### Links of neighbours -/

theorem relinks_before (p : Buddy) (tier : Nat) (neighbour link : Option Nat)
    (h : ∀ j, neighbour = some j → ∀ o, (p.tiers.span ⟨tier, j⟩).Has o → written o) :
    p.Relinks (p.relinkBefore tier neighbour link) written := by
  cases neighbour with
  | none => exact ⟨rfl, rfl, rfl, rfl, rfl, rfl, fun _ _ => rfl⟩
  | some j =>
    apply relinks_withLink
    intro o ho ho'
    exact h j rfl o (Tiers.has_node ho (by omega))

theorem relinks_behind (p : Buddy) (tier : Nat) (neighbour link : Option Nat)
    (h : ∀ j, neighbour = some j → ∀ o, (p.tiers.span ⟨tier, j⟩).Has o → written o) :
    p.Relinks (p.relinkBehind tier neighbour link) written := by
  cases neighbour with
  | none => exact relinks_withHead ..
  | some j =>
    apply relinks_withLink
    intro o ho ho'
    exact h j rfl o (Tiers.has_node (by omega) (by omega))

theorem heads_relinkBefore (p : Buddy) (tier : Nat) (neighbour link : Option Nat) :
    (p.relinkBefore tier neighbour link).heads = p.heads := by
  cases neighbour with
  | none => rfl
  | some j => exact heads_withLink ..

theorem heads_relinkBehind (p : Buddy) (neighbour link : Option Nat) (h : tier < p.heads.size)
    (s : Nat) :
    (p.relinkBehind tier neighbour link).heads[s]? =
      if s = tier ∧ neighbour = none then some link else p.heads[s]? := by
  cases neighbour with
  | none =>
    change (p.withHead tier link).heads[s]? = _
    rw [heads_withHead p tier s link h]
    simp only [and_true]
  | some j =>
    have hh : (p.relinkBehind tier (some j) link).heads = p.heads := heads_withLink ..
    rw [hh, if_neg (fun hs => nomatch hs.2)]

namespace Shaped

variable {neighbour link : Option Nat}

theorem linkAt_relinkBefore (hp : p.Shaped) (ha : p.tiers.Holds a)
    (hn : ∀ j, neighbour = some j →
      p.tiers.Holds ⟨tier, j⟩ ∧ (a.Meets ⟨tier, j⟩ → a = ⟨tier, j⟩))
    (hl : ∀ j, link = some j → j < noBlock) :
    (p.relinkBefore tier neighbour link).linkAt a =
      if a.tier = tier ∧ neighbour = some a.index then (link, (p.linkAt a).2)
      else p.linkAt a := by
  cases neighbour with
  | none =>
    rw [if_neg (fun h => nomatch h.2)]
    rfl
  | some j =>
    obtain ⟨hj, hm⟩ := hn j rfl
    have hiff : a = ⟨tier, j⟩ ↔ a.tier = tier ∧ some j = some a.index := by
      obtain ⟨s, i⟩ := a
      rw [Block.mk.injEq, Option.some.injEq, eq_comm (a := j)]
    change (p.withLink _ link).linkAt a = _
    rw [hp.linkAt_before ha hj hm hl]
    simp only [hiff]

theorem linkAt_relinkBehind (hp : p.Shaped) (ha : p.tiers.Holds a)
    (hn : ∀ j, neighbour = some j →
      p.tiers.Holds ⟨tier, j⟩ ∧ (a.Meets ⟨tier, j⟩ → a = ⟨tier, j⟩))
    (hl : ∀ j, link = some j → j < noBlock) :
    (p.relinkBehind tier neighbour link).linkAt a =
      if a.tier = tier ∧ neighbour = some a.index then ((p.linkAt a).1, link)
      else p.linkAt a := by
  cases neighbour with
  | none =>
    rw [if_neg (fun h => nomatch h.2)]
    exact linkAt_withHead ..
  | some j =>
    obtain ⟨hj, hm⟩ := hn j rfl
    have hiff : a = ⟨tier, j⟩ ↔ a.tier = tier ∧ some j = some a.index := by
      obtain ⟨s, i⟩ := a
      rw [Block.mk.injEq, Option.some.injEq, eq_comm (a := j)]
    change (p.withLink _ link).linkAt a = _
    rw [hp.linkAt_behind ha hj hm hl]
    simp only [hiff]

end Shaped

/-! ### Putting a block in front -/

def pushed (p : Buddy) (b : Block) (first : Option Nat) : Buddy :=
  let p₁ := p.withLink (p.tiers.node b) none
  let p₂ := p₁.withLink (p₁.tiers.node b + 4) first
  (p₂.relinkBefore b.tier first (some b.index)).withHead b.tier (some b.index)

namespace Shaped

variable {first : Option Nat}

theorem push_ok (hp : p.Shaped) (hb : p.tiers.Holds b) (hf : p.heads[b.tier]? = some first)
    (hn : ∀ j, first = some j → p.tiers.Holds ⟨b.tier, j⟩) :
    push b p = .ok () (p.pushed b first) := by
  let p₁ := p.withLink (p.tiers.node b) none
  let p₂ := p₁.withLink (p₁.tiers.node b + 4) first
  have h₁ : p.Relinks p₁ fun _ => True := relinks_withLink _ _ fun _ _ _ => trivial
  have h₂ : p.Relinks p₂ fun _ => True := h₁.trans (relinks_withLink _ _ fun _ _ _ => trivial)
  have hb₁ : p₁.tiers.Holds b := h₁.tiers ▸ hb
  rw [push, Op.get_bind, Op.lift_bind _ (hp.head_ok hb.1 hf)]
  dsimp only
  rw [Op.bind_ok _ (hp.setBefore_ok hb none), Op.bind_ok _ ((h₁.shaped hp).setBehind_ok hb₁ first)]
  cases first with
  | none => exact (h₂.shaped hp).setHead_ok (h₂.tiers ▸ hb.1) (some b.index)
  | some j =>
    have hj : p₂.tiers.Holds ⟨b.tier, j⟩ := h₂.tiers ▸ hn j rfl
    have h₃ : p.Relinks (p₂.withLink (p₂.tiers.node ⟨b.tier, j⟩) (some b.index)) fun _ => True :=
      h₂.trans (relinks_withLink _ _ fun _ _ _ => trivial)
    dsimp only
    rw [Op.lift_bind _ ((h₂.shaped hp).of_ok hj),
      Op.bind_ok _ ((h₂.shaped hp).setBefore_ok hj (some b.index))]
    exact (h₃.shaped hp).setHead_ok (h₃.tiers ▸ hb.1) (some b.index)

end Shaped

theorem Threads.lists_of_head (F : FreeLists) {first : Option Nat} (h : (F tier).head? = first) :
    ∀ j, first = some j → F.Lists ⟨tier, j⟩ := by
  rintro j rfl
  exact List.mem_of_head? h

theorem Threads.index_lt (h : p.Threads F) {link : Option Nat}
    (hl : ∀ j, link = some j → F.Lists ⟨tier, j⟩) : ∀ j, link = some j → j < noBlock := by
  intro j hj
  exact h.toShaped.index_lt (h.holds _ (hl j hj))

theorem Threads.linkAt_pushed (h : p.Threads F) (hb : p.tiers.Holds b)
    (hm : ∀ a, F.Lists a → ¬ a.Meets b) (ha : p.tiers.Holds a)
    (hab : a = b ∨ F.Lists a) :
    (p.pushed b (F b.tier).head?).linkAt a =
      if a = b then (none, (F b.tier).head?)
      else if a.tier = b.tier ∧ (F b.tier).head? = some a.index then
        (some b.index, (p.linkAt a).2)
      else p.linkAt a := by
  obtain ⟨first, hf⟩ : ∃ first, (F b.tier).head? = first := ⟨_, rfl⟩
  rw [hf]
  have hfl := Threads.lists_of_head F hf
  let p₁ := p.withLink (p.tiers.node b) none
  let p₂ := p₁.withLink (p₁.tiers.node b + 4) first
  have h₁ : p.Relinks p₁ fun _ => True := relinks_withLink _ _ fun _ _ _ => trivial
  have h₂ : p.Relinks p₂ fun _ => True := h₁.trans (relinks_withLink _ _ fun _ _ _ => trivial)
  have hp := h.toShaped
  have hbn : ∀ j, some b.index = some j → j < noBlock := by
    rintro j ⟨⟩
    exact hp.index_lt hb
  have hab' : a.Meets b → a = b := by
    intro hmeet
    obtain he | hl := hab
    · exact he
    · exact absurd hmeet (hm a hl)
  have hafirst : ∀ j, first = some j →
      p₂.tiers.Holds ⟨b.tier, j⟩ ∧ (a.Meets ⟨b.tier, j⟩ → a = ⟨b.tier, j⟩) := by
    intro j hj
    refine ⟨h₂.tiers ▸ h.holds _ (hfl j hj), ?_⟩
    intro hmeet
    obtain rfl | hl := hab
    · exact absurd hmeet.symm (hm _ (hfl j hj))
    · exact h.apart _ _ hl (hfl j hj) hmeet
  have hlink₁ : p₁.linkAt a = if a = b then (none, (p.linkAt a).2) else p.linkAt a :=
    hp.linkAt_before ha hb hab' (fun _ hj => nomatch hj)
  have hlink₂ : p₂.linkAt a = if a = b then ((p₁.linkAt a).1, first) else p₁.linkAt a :=
    (h₁.shaped hp).linkAt_behind (h₁.tiers ▸ ha) (h₁.tiers ▸ hb) hab' (h.index_lt hfl)
  have hlink₃ : (p.pushed b first).linkAt a =
      if a.tier = b.tier ∧ first = some a.index then (some b.index, (p₂.linkAt a).2)
      else p₂.linkAt a := by
    rw [← (h₂.shaped hp).linkAt_relinkBefore (h₂.tiers ▸ ha) hafirst hbn]
    exact linkAt_withHead ..
  rw [hlink₃, hlink₂, hlink₁]
  by_cases he : a = b
  · have hn : ¬ (a.tier = b.tier ∧ first = some a.index) := by
      rintro ⟨-, hi⟩
      subst he
      exact hm a (hfl _ hi) (.refl a)
    simp only [if_pos he, if_neg hn]
  · simp only [if_neg he]

theorem Threads.head_pushed (h : p.Threads F) (hb : p.tiers.Holds b) {s : Nat}
    (hs : s < p.tiers.count) :
    (p.pushed b (F b.tier).head?).heads[s]? = some (F.push b s).head? := by
  let p₂ := (p.withLink (p.tiers.node b) none).withLink
    ((p.withLink (p.tiers.node b) none).tiers.node b + 4) (F b.tier).head?
  let p₃ := p₂.relinkBefore b.tier (F b.tier).head? (some b.index)
  have hh₃ : p₃.heads = p.heads := by
    rw [heads_relinkBefore, heads_withLink, heads_withLink]
  have hsize : b.tier < p₃.heads.size := by
    rw [hh₃, h.heads_size]
    exact hb.1
  have hh : (p.pushed b (F b.tier).head?).heads[s]? =
      if s = b.tier then some (some b.index) else p₃.heads[s]? := heads_withHead _ _ _ _ hsize
  rw [hh, hh₃, h.head s hs, FreeLists.push, Function.update_apply]
  split <;> rfl

theorem Threads.thread_pushed (h : p.Threads F) (hb : p.tiers.Holds b)
    (hm : ∀ a, F.Lists a → ¬ a.Meets b) (s : Nat) :
    Threaded (fun i => (p.pushed b (F b.tier).head?).linkAt ⟨s, i⟩) none none (F.push b s) := by
  have hlink : ∀ i ∈ F s, (p.pushed b (F b.tier).head?).linkAt ⟨s, i⟩ =
      if s = b.tier ∧ (F b.tier).head? = some i then (some b.index, (p.linkAt ⟨s, i⟩).2)
      else p.linkAt ⟨s, i⟩ := by
    intro i hi
    have hne : (⟨s, i⟩ : Block) ≠ b := by
      rintro rfl
      exact hm ⟨s, i⟩ hi (.refl _)
    rw [h.linkAt_pushed hb hm (h.holds ⟨s, i⟩ hi) (.inr hi), if_neg hne]
  by_cases hs : s = b.tier
  · subst hs
    rw [FreeLists.push_self]
    refine ⟨?_, (h.thread b.tier).relink_before (h.nodup b.tier) ?_⟩
    · change (p.pushed b (F b.tier).head?).linkAt b = _
      rw [h.linkAt_pushed hb hm hb (.inl rfl), if_pos rfl, Option.or_none]
    · intro i hi
      simpa only [true_and] using hlink i hi
  · rw [FreeLists.push_of_ne F hs]
    apply (h.thread s).congr
    intro i hi
    rw [hlink i hi, if_neg (fun ht => hs ht.1)]

theorem relinks_pushed (p : Buddy) (F : FreeLists) (b : Block) :
    p.Relinks (p.pushed b (F b.tier).head?) (p.Listed (F.push b)) := by
  let p₁ := p.withLink (p.tiers.node b) none
  let p₂ := p₁.withLink (p₁.tiers.node b + 4) (F b.tier).head?
  have hw : ∀ a, (F.push b).Lists a → ∀ o, (p.tiers.span a).Has o → p.Listed (F.push b) o :=
    fun a ha o ho => ⟨a, ha, ho⟩
  have hself : (F.push b).Lists b := FreeLists.lists_push.2 (.inl rfl)
  have hfl := Threads.lists_of_head F (rfl : (F b.tier).head? = _)
  have h₁ : p.Relinks p₁ (p.Listed (F.push b)) := by
    apply relinks_withLink
    intro o ho ho'
    exact hw b hself o (Tiers.has_node ho (by omega))
  have h₂ : p.Relinks p₂ (p.Listed (F.push b)) := by
    apply h₁.trans (relinks_withLink _ _ _)
    intro o ho ho'
    exact hw b hself o (h₁.tiers ▸ Tiers.has_node (by omega) (by omega))
  apply (h₂.trans (relinks_before _ _ _ _ _)).trans (relinks_withHead ..)
  intro j hj o ho
  exact hw ⟨b.tier, j⟩ (FreeLists.lists_push.2 (.inr (hfl j hj))) o (h₂.tiers ▸ ho)

/-- The lists thread the free blocks after one more was put in front. -/
theorem Threads.push (h : p.Threads F) (hb : p.tiers.Holds b)
    (hm : ∀ a, F.Lists a → ¬ a.Meets b) :
    ∃ q, Buddy.push b p = .ok () q ∧ q.Threads (F.push b) ∧ p.Relinks q (p.Listed (F.push b)) := by
  have hp := h.toShaped
  have hr := relinks_pushed p F b
  have hfirst : ∀ j, (F b.tier).head? = some j → p.tiers.Holds ⟨b.tier, j⟩ := fun j hj =>
    h.holds _ (Threads.lists_of_head F rfl j hj)
  refine ⟨_, hp.push_ok hb (h.head _ hb.1) hfirst, ⟨hr.shaped hp, ?_, ?_, ?_, ?_, ?_⟩, hr⟩
  · intro a ha
    rw [hr.tiers]
    obtain rfl | ha := FreeLists.lists_push.1 ha
    · exact hb
    · exact h.holds a ha
  · intro a c ha hc hmeet
    obtain hab | ha := FreeLists.lists_push.1 ha
    · obtain hcb | hc := FreeLists.lists_push.1 hc
      · rw [hab, hcb]
      · exact absurd (hab ▸ hmeet.symm) (hm c hc)
    · obtain hcb | hc := FreeLists.lists_push.1 hc
      · exact absurd (hcb ▸ hmeet) (hm a ha)
      · exact h.apart a c ha hc hmeet
  · intro s
    rw [FreeLists.push, Function.update_apply]
    split
    · exact List.nodup_cons.2 ⟨fun hi => hm b hi (.refl b), h.nodup _⟩
    · exact h.nodup s
  · intro s hs
    rw [hr.tiers] at hs
    exact h.head_pushed hb hs
  · exact h.thread_pushed hb hm

/-! ### Taking a block out -/

def erased (p : Buddy) (b : Block) (before behind : Option Nat) : Buddy :=
  (p.relinkBehind b.tier before behind).relinkBefore b.tier behind before

theorem Shaped.relinkBefore_ok (hp : p.Shaped) (tier : Nat) (neighbour link : Option Nat) :
    (∀ j, neighbour = some j → p.tiers.Holds ⟨tier, j⟩) →
    (match neighbour with
      | some index => do
        let c ← liftM (Block.of tier index)
        setBefore c link
      | _ => pure () : Op Buddy Unit) p = .ok () (p.relinkBefore tier neighbour link) := by
  intro hn
  cases neighbour with
  | none => rfl
  | some j =>
    dsimp only
    rw [Op.lift_bind _ (hp.of_ok (hn j rfl))]
    exact hp.setBefore_ok (hn j rfl) link

theorem Shaped.erase_ok (hp : p.Shaped) (hb : p.tiers.Holds b) {before behind : Option Nat}
    (hl : p.linkAt b = (before, behind))
    (hh : before = none → p.heads[b.tier]? = some (some b.index))
    (hbefore : ∀ j, before = some j → p.tiers.Holds ⟨b.tier, j⟩)
    (hbehind : ∀ j, behind = some j → p.tiers.Holds ⟨b.tier, j⟩) :
    erase b p = .ok () (p.erased b before behind) := by
  let p₁ := p.relinkBehind b.tier before behind
  have h₁ : p.Relinks p₁ fun _ => True := relinks_behind _ _ _ _ fun _ _ _ _ => trivial
  have hrest := (h₁.shaped hp).relinkBefore_ok b.tier behind before fun j hj =>
    h₁.tiers ▸ hbehind j hj
  rw [erase, Op.get_bind, Op.lift_bind _ (hp.links_ok hb), hl]
  cases before with
  | none =>
    dsimp only
    rw [Op.get_bind, Op.lift_bind _ (hp.head_ok hb.1 (hh rfl)),
      if_neg (not_not_intro rfl), Op.bind_ok _ (hp.setHead_ok hb.1 behind)]
    exact hrest
  | some i =>
    have hi := hbefore i rfl
    dsimp only
    rw [Op.lift_bind _ (hp.of_ok hi), Op.bind_ok _ (hp.setBehind_ok hi behind)]
    exact hrest

namespace Threads

theorem link_of_split (h : p.Threads F) (hs : F b.tier = xs ++ b.index :: ys) :
    p.linkAt b = (xs.getLast?, ys.head?) := by
  have ht := h.thread b.tier
  rw [hs, Threaded.append] at ht
  have hl := ht.2.1
  rw [Option.or_none, Option.or_none] at hl
  exact hl

theorem linkAt_erased (h : p.Threads F) {before behind : Option Nat}
    (hbefore : ∀ j, before = some j → F.Lists ⟨b.tier, j⟩)
    (hbehind : ∀ j, behind = some j → F.Lists ⟨b.tier, j⟩) (ha : F.Lists a) :
    (p.erased b before behind).linkAt a =
      (if a.tier = b.tier ∧ behind = some a.index then before else (p.linkAt a).1,
        if a.tier = b.tier ∧ before = some a.index then behind else (p.linkAt a).2) := by
  let p₁ := p.relinkBehind b.tier before behind
  have h₁ : p.Relinks p₁ fun _ => True := relinks_behind _ _ _ _ fun _ _ _ _ => trivial
  have hlink₁ : p₁.linkAt a =
      if a.tier = b.tier ∧ before = some a.index then ((p.linkAt a).1, behind)
      else p.linkAt a := by
    refine h.toShaped.linkAt_relinkBehind (h.holds a ha) ?_ (h.index_lt hbehind)
    intro j hj
    exact ⟨h.holds _ (hbefore j hj), h.apart a _ ha (hbefore j hj)⟩
  have hlink : (p.erased b before behind).linkAt a =
      if a.tier = b.tier ∧ behind = some a.index then (before, (p₁.linkAt a).2)
      else p₁.linkAt a := by
    refine (h₁.shaped h.toShaped).linkAt_relinkBefore (h₁.tiers ▸ h.holds a ha) ?_
      (h.index_lt hbefore)
    intro j hj
    exact ⟨h₁.tiers ▸ h.holds _ (hbehind j hj), h.apart a _ ha (hbehind j hj)⟩
  rw [hlink, hlink₁]
  split <;> split <;> rfl

theorem head_erased (h : p.Threads F) (hb : b.tier < p.tiers.count)
    (hs : F b.tier = xs ++ b.index :: ys) {s : Nat} (hs' : s < p.tiers.count) :
    (p.erased b xs.getLast? ys.head?).heads[s]? = some (F.drop b s).head? := by
  have hsize : b.tier < p.heads.size := h.heads_size.symm ▸ hb
  have hh : (p.erased b xs.getLast? ys.head?).heads[s]? =
      if s = b.tier ∧ xs.getLast? = none then some ys.head? else p.heads[s]? := by
    rw [← heads_relinkBehind p _ _ hsize s]
    exact congrArg (·[s]?) (heads_relinkBefore ..)
  rw [hh, h.head s hs']
  by_cases he : s = b.tier
  · subst he
    rw [FreeLists.drop_self (h.nodup _) hs, hs]
    cases xs with
    | nil => rw [if_pos ⟨rfl, rfl⟩, List.nil_append]
    | cons x xs =>
      rw [if_neg (fun hn => nomatch hn.2)]
      rfl
  · rw [FreeLists.drop_of_ne F he, if_neg (fun hn => he hn.1)]

theorem thread_erased (h : p.Threads F) (hs : F b.tier = xs ++ b.index :: ys) (s : Nat) :
    Threaded (fun i => (p.erased b xs.getLast? ys.head?).linkAt ⟨s, i⟩) none none
      (F.drop b s) := by
  have hnodup := h.nodup b.tier
  rw [hs, List.nodup_middle, List.nodup_cons] at hnodup
  obtain ⟨hnx, hny, hdisj⟩ := List.nodup_append.1 hnodup.2
  have hlink : ∀ {a}, F.Lists a → (p.erased b xs.getLast? ys.head?).linkAt a =
      (if a.tier = b.tier ∧ ys.head? = some a.index then xs.getLast? else (p.linkAt a).1,
        if a.tier = b.tier ∧ xs.getLast? = some a.index then ys.head? else (p.linkAt a).2) :=
    h.linkAt_erased (fun j hj => FreeLists.lists_before hs (List.mem_of_getLast? hj))
      (fun j hj => FreeLists.lists_behind hs (List.mem_of_head? hj))
  by_cases he : s = b.tier
  · subst he
    rw [FreeLists.drop_self (h.nodup _) hs, Threaded.append, Option.or_none, Option.or_none]
    have ht := h.thread b.tier
    rw [hs, Threaded.append] at ht
    obtain ⟨htx, -, hty⟩ := ht
    -- Only the last block before the gap and the first one behind it change a link.
    refine ⟨htx.relink_after hnx ?_, hty.relink_before hny ?_⟩
    · intro j hj
      have hne : ys.head? ≠ some j := fun hy => hdisj j hj j (List.mem_of_head? hy) rfl
      rw [hlink (FreeLists.lists_before hs hj), if_neg (fun hn => hne hn.2)]
      simp only [true_and]
      split <;> rfl
    · intro j hj
      have hne : xs.getLast? ≠ some j := fun hx => hdisj j (List.mem_of_getLast? hx) j hj rfl
      rw [hlink (FreeLists.lists_behind hs hj)]
      simp only [true_and, if_neg hne]
      split <;> rfl
  · rw [FreeLists.drop_of_ne F he]
    apply (h.thread s).congr
    intro i hi
    rw [hlink (a := ⟨s, i⟩) hi, if_neg (fun hn => he hn.1), if_neg (fun hn => he hn.1)]

theorem relinks_erased (p : Buddy) (hs : F b.tier = xs ++ b.index :: ys) :
    p.Relinks (p.erased b xs.getLast? ys.head?) (p.Listed F) := by
  have h₁ : p.Relinks (p.relinkBehind b.tier xs.getLast? ys.head?) (p.Listed F) := by
    apply relinks_behind
    intro j hj o ho
    exact ⟨_, FreeLists.lists_before hs (List.mem_of_getLast? hj), ho⟩
  apply h₁.trans (relinks_before _ _ _ _ _)
  intro j hj o ho
  exact ⟨_, FreeLists.lists_behind hs (List.mem_of_head? hj), h₁.tiers ▸ ho⟩

/-- The lists thread the free blocks after any one of them was taken out. -/
theorem erase (h : p.Threads F) (hb : F.Lists b) :
    ∃ q, Buddy.erase b p = .ok () q ∧ q.Threads (F.drop b) ∧ p.Relinks q (p.Listed F) := by
  have hp := h.toShaped
  obtain ⟨xs, ys, hs⟩ := List.append_of_mem hb
  have hr := relinks_erased p hs
  have hhead : xs.getLast? = none → p.heads[b.tier]? = some (some b.index) := by
    intro hn
    rw [h.head _ (h.holds b hb).1, hs, List.getLast?_eq_none_iff.1 hn]
    rfl
  have hrun := hp.erase_ok (h.holds b hb) (h.link_of_split hs) hhead
    (fun j hj => h.holds _ (FreeLists.lists_before hs (List.mem_of_getLast? hj)))
    (fun j hj => h.holds _ (FreeLists.lists_behind hs (List.mem_of_head? hj)))
  have hlists : ∀ {a}, (F.drop b).Lists a → F.Lists a := fun ha =>
    ((FreeLists.lists_drop (h.nodup _)).1 ha).1
  refine ⟨_, hrun, ⟨hr.shaped hp, ?_, ?_, ?_, ?_, ?_⟩, hr⟩
  · intro a ha
    rw [hr.tiers]
    exact h.holds a (hlists ha)
  · intro a c ha hc
    exact h.apart a c (hlists ha) (hlists hc)
  · exact FreeLists.nodup_drop h.nodup b
  · intro s hs'
    rw [hr.tiers] at hs'
    exact h.head_erased (h.holds b hb).1 hs hs'
  · exact h.thread_erased hs

theorem pop_none (h : p.Threads F) (ht : tier < p.tiers.count) (hf : F tier = []) :
    pop tier p = .ok none p := by
  have hh := h.head tier ht
  rw [hf] at hh
  rw [pop, Op.get_bind, Op.lift_bind _ (h.head_ok ht hh)]
  rfl

theorem pop_some (h : p.Threads F) {i : Nat} {rest : List Nat} (hf : F tier = i :: rest) :
    ∃ q, pop tier p = .ok (some ⟨tier, i⟩) q ∧ q.Threads (F.drop ⟨tier, i⟩) ∧
      p.Relinks q (p.Listed F) := by
  have hb := FreeLists.lists_of_cons hf
  have hh := h.head tier (h.holds _ hb).1
  rw [hf] at hh
  obtain ⟨q, hq, hrest⟩ := h.erase hb
  refine ⟨q, ?_, hrest⟩
  rw [pop, Op.get_bind, Op.lift_bind _ (h.head_ok (h.holds _ hb).1 hh)]
  dsimp only [List.head?_cons]
  rw [Op.lift_bind _ (h.of_ok (h.holds _ hb)), Op.bind_ok _ hq, Op.pure_apply]

theorem congr (h : p.Threads F) (ht : q.tiers = p.tiers) (hh : q.heads = p.heads)
    (hs : q.region.size = p.region.size)
    (hb : ∀ o, p.Listed F o → q.region.byte o = p.region.byte o) : q.Threads F where
  wellFormed := by rw [ht]; exact h.wellFormed
  count_le := by rw [ht]; exact h.count_le
  size_eq := by rw [ht, hs]; exact h.size_eq
  heads_size := by rw [ht, hh]; exact h.heads_size
  holds := by rw [ht]; exact h.holds
  apart := h.apart
  nodup := h.nodup
  head := by rw [ht, hh]; exact h.head
  thread := by
    intro tier
    apply (h.thread tier).congr
    intro i hi
    have hw : ∀ k, p.tiers.node ⟨tier, i⟩ ≤ k → k + 4 ≤ p.tiers.node ⟨tier, i⟩ + 8 →
        q.region.word k = p.region.word k := by
      intro k hk hk'
      apply Region.word_congr
      intro o ho ho'
      exact hb o ⟨⟨tier, i⟩, hi, Tiers.has_node (by omega) (by omega)⟩
    rw [linkAt, ht, hw _ (by omega) (by omega), hw _ (by omega) (by omega)]
    rfl

end Threads

end Buddy

end FixedPool
