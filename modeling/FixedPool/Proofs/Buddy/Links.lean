import FixedPool.Buddy.FreeList
import FixedPool.Proofs.Buddy.Bitmap
import FixedPool.Proofs.Region

/-!
The links that free blocks keep in their last bytes: changing one link of a block changes no other
one, and no byte but those of the block.
-/

namespace FixedPool

/-- Where a free block keeps its links. -/
def Tiers.node (t : Tiers) (b : Block) : Nat := t.offset b + t.extent b.tier - 8

theorem Tiers.node_add (t : Tiers) (b : Block) : t.node b + 8 = t.offset b + t.extent b.tier := by
  have := t.leastBlock_le_extent b.tier
  have hl : leastBlock = 16 := rfl
  rw [node]
  omega

theorem Tiers.has_node {t : Tiers} {b : Block} {o : Nat} (h : t.node b ≤ o) (h' : o < t.node b + 8) :
    (t.span b).Has o := by
  have := t.leastBlock_le_extent b.tier
  have hl : leastBlock = 16 := rfl
  have hn := t.node_add b
  refine ⟨?_, ?_⟩
  · change t.offset b ≤ o
    omega
  · change o < t.offset b + t.extent b.tier
    omega

namespace Buddy

/-- The region and the list heads fit the tiers. -/
structure Shaped (p : Buddy) : Prop where
  wellFormed : p.tiers.WellFormed
  count_le : p.tiers.count ≤ 32
  size_eq : p.region.size = p.tiers.capacity
  heads_size : p.heads.size = p.tiers.count

/-- The links of a free block, as they stand in the region. -/
def linkAt (p : Buddy) (b : Block) : Option Nat × Option Nat :=
  (decodeLink (p.region.word (p.tiers.node b)), decodeLink (p.region.word (p.tiers.node b + 4)))

@[irreducible] def withLink (p : Buddy) (offset : Nat) (link : Option Nat) : Buddy :=
  { p with region := p.region.setWord offset (encodeLink link) }

@[irreducible] def withHead (p : Buddy) (tier : Nat) (link : Option Nat) : Buddy :=
  { p with heads := p.heads.setIfInBounds tier link }

/-- One state follows another by changes to list heads and to some bytes. -/
structure Relinks (p q : Buddy) (written : Nat → Prop) : Prop where
  tiers : q.tiers = p.tiers
  marks : q.marks = p.marks
  used : q.used = p.used
  peak : q.peak = p.peak
  size : q.region.size = p.region.size
  heads_size : q.heads.size = p.heads.size
  byte : ∀ o, ¬ written o → q.region.byte o = p.region.byte o

variable {p q r : Buddy} {a b : Block} {F : FreeLists} {link : Option Nat} {o tier : Nat}
  {written written' : Nat → Prop}

namespace Relinks

theorem trans (h : p.Relinks q written) (h' : q.Relinks r written) : p.Relinks r written where
  tiers := h'.tiers.trans h.tiers
  marks := h'.marks.trans h.marks
  used := h'.used.trans h.used
  peak := h'.peak.trans h.peak
  size := h'.size.trans h.size
  heads_size := h'.heads_size.trans h.heads_size
  byte := fun o ho => (h'.byte o ho).trans (h.byte o ho)

theorem mono (h : p.Relinks q written) (hw : ∀ o, written o → written' o) :
    p.Relinks q written' :=
  { h with byte := fun o ho => h.byte o fun hn => ho (hw o hn) }

theorem shaped (h : p.Relinks q written) (hp : p.Shaped) : q.Shaped where
  wellFormed := by rw [h.tiers]; exact hp.wellFormed
  count_le := by rw [h.tiers]; exact hp.count_le
  size_eq := by rw [h.size, h.tiers]; exact hp.size_eq
  heads_size := by rw [h.heads_size, h.tiers]; exact hp.heads_size

end Relinks

/-! ### Single links -/

theorem region_withLink (p : Buddy) (o : Nat) (link : Option Nat) :
    (p.withLink o link).region = p.region.setWord o (encodeLink link) := by
  unfold withLink
  dsimp only

theorem tiers_withLink (p : Buddy) (o : Nat) (link : Option Nat) :
    (p.withLink o link).tiers = p.tiers := by
  unfold withLink
  dsimp only

theorem heads_withLink (p : Buddy) (o : Nat) (link : Option Nat) :
    (p.withLink o link).heads = p.heads := by
  unfold withLink
  dsimp only

theorem relinks_withLink (p : Buddy) (link : Option Nat) (h : ∀ i, o ≤ i → i < o + 4 → written i) :
    p.Relinks (p.withLink o link) written where
  tiers := tiers_withLink ..
  marks := by unfold withLink; dsimp only
  used := by unfold withLink; dsimp only
  peak := by unfold withLink; dsimp only
  size := by rw [region_withLink, Region.size_setWord]
  heads_size := by rw [heads_withLink]
  byte := by
    intro i hi
    rw [region_withLink]
    apply Region.byte_setWord_ne
    by_contra hn
    exact hi (h i (by omega) (by omega))

theorem relinks_withHead (p : Buddy) (tier : Nat) (link : Option Nat) (written : Nat → Prop) :
    p.Relinks (p.withHead tier link) written := by
  unfold withHead
  exact ⟨rfl, rfl, rfl, rfl, rfl, Array.size_setIfInBounds, fun _ _ => rfl⟩

theorem heads_withHead (p : Buddy) (tier i : Nat) (link : Option Nat) (h : tier < p.heads.size) :
    (p.withHead tier link).heads[i]? = if i = tier then some link else p.heads[i]? := by
  unfold withHead
  dsimp only
  rw [Array.getElem?_setIfInBounds]
  by_cases hi : i = tier
  · rw [if_pos hi.symm, if_pos hi, if_pos (hi ▸ h)]
  · rw [if_neg (Ne.symm hi), if_neg hi]

theorem linkAt_withHead (p : Buddy) (tier : Nat) (link : Option Nat) (a : Block) :
    (p.withHead tier link).linkAt a = p.linkAt a := by
  unfold withHead linkAt
  dsimp only

theorem decodeLink_encodeLink (h : ∀ i, link = some i → i < noBlock) :
    decodeLink (encodeLink link) = link := by
  have hn : noBlock = 2 ^ 32 - 1 := rfl
  cases link with
  | none => rfl
  | some i =>
    have hi := h i rfl
    have he : (encodeLink (some i)).toNat = i := UInt32.toNat_ofNat_of_lt' (by
      change i < 2 ^ 32
      omega)
    rw [decodeLink, he, if_neg (by omega)]

theorem decodeLink_inj {w w' : UInt32} (h : decodeLink w = decodeLink w') : w = w' := by
  apply UInt32.toNat.inj
  rw [decodeLink, decodeLink] at h
  split at h <;> split at h <;> simp_all

namespace Shaped

theorem size_lt (hp : p.Shaped) : p.region.size < Word.bound :=
  hp.size_eq ▸ Tiers.capacity_lt hp.wellFormed

theorem node_le (hp : p.Shaped) (hb : p.tiers.Holds b) : p.tiers.node b + 8 ≤ p.region.size := by
  rw [hp.size_eq, Tiers.node_add]
  exact hb.end_le hp.wellFormed

theorem index_lt (hp : p.Shaped) (hb : p.tiers.Holds b) : b.index < noBlock := by
  have ht := hb.1
  have hc := hp.count_le
  exact Nat.lt_trans hb.2
    (Nat.lt_of_le_of_lt (Nat.pow_le_pow_right (by decide) (by omega : b.tier ≤ 31)) (by decide))

theorem of_ok (hp : p.Shaped) (hb : p.tiers.Holds b) : Block.of b.tier b.index = .ok b :=
  if_pos ⟨Nat.lt_of_lt_of_le hb.1 hp.count_le, (Nat.one_shiftLeft _).symm ▸ hb.2⟩

theorem linksOffset_ok (hp : p.Shaped) (hb : p.tiers.Holds b) :
    p.linksOffset b = .ok (p.tiers.node b) := by
  have hn := p.tiers.node_add b
  have hs := hp.size_lt
  have he := hp.node_le hb
  rw [linksOffset, Tiers.start_ok hp.wellFormed hb, Checked.ok_bind,
    Tiers.width_ok hp.wellFormed hb.1, Checked.ok_bind, Word.add_ok (by omega), Checked.ok_bind,
    Word.sub_ok (by omega)]
  rfl

theorem links_ok (hp : p.Shaped) (hb : p.tiers.Holds b) : p.links b = .ok (p.linkAt b) := by
  have hs := hp.size_lt
  have he := hp.node_le hb
  rw [links, hp.linksOffset_ok hb, Checked.ok_bind, Region.loadWord_ok hs (by omega),
    Checked.ok_bind, Word.add_ok (by omega), Checked.ok_bind, Region.loadWord_ok hs (by omega)]
  rfl

theorem storeLink_ok (hp : p.Shaped) (h : o + 4 ≤ p.region.size) (link : Option Nat) :
    storeLink o link p = .ok () (p.withLink o link) := by
  rw [storeLink, Op.get_bind, Op.lift_bind _ (Region.storeWord_ok hp.size_lt h _)]
  unfold withLink
  rfl

theorem setBefore_ok (hp : p.Shaped) (hb : p.tiers.Holds b) (link : Option Nat) :
    setBefore b link p = .ok () (p.withLink (p.tiers.node b) link) := by
  have he := hp.node_le hb
  rw [setBefore, Op.get_bind, Op.lift_bind _ (hp.linksOffset_ok hb)]
  exact hp.storeLink_ok (by omega) link

theorem setBehind_ok (hp : p.Shaped) (hb : p.tiers.Holds b) (link : Option Nat) :
    setBehind b link p = .ok () (p.withLink (p.tiers.node b + 4) link) := by
  have hs := hp.size_lt
  have he := hp.node_le hb
  rw [setBehind, Op.get_bind, Op.lift_bind _ (hp.linksOffset_ok hb),
    Op.lift_bind _ (Word.add_ok (by omega))]
  exact hp.storeLink_ok (by omega) link

theorem head_ok (hp : p.Shaped) (ht : tier < p.tiers.count) {first : Option Nat}
    (h : p.heads[tier]? = some first) : p.head tier = .ok first := by
  have hs : tier < p.heads.size := hp.heads_size.symm ▸ ht
  rw [Array.getElem?_eq_getElem hs, Option.some.injEq] at h
  rw [head, dif_pos hs, h]

theorem setHead_ok (hp : p.Shaped) (ht : tier < p.tiers.count) (link : Option Nat) :
    setHead tier link p = .ok () (p.withHead tier link) := by
  have hs : tier < p.heads.size := hp.heads_size.symm ▸ ht
  have hh : p.head tier = .ok p.heads[tier] := dif_pos hs
  rw [setHead, Op.get_bind, Op.lift_bind _ hh]
  unfold withHead
  rfl

theorem node_apart (ha : p.tiers.Holds a) (hb : p.tiers.Holds b) (h : ¬ a.Meets b) :
    p.tiers.node a + 8 ≤ p.tiers.node b ∨ p.tiers.node b + 8 ≤ p.tiers.node a := by
  by_contra hn
  apply h
  have hm : ∃ o, p.tiers.node a ≤ o ∧ o < p.tiers.node a + 8 ∧ p.tiers.node b ≤ o ∧
      o < p.tiers.node b + 8 :=
    ⟨max (p.tiers.node a) (p.tiers.node b), by omega⟩
  obtain ⟨o, h₁, h₂, h₃, h₄⟩ := hm
  exact Tiers.meets_of_has ha.1 hb.1 (Tiers.has_node h₁ h₂) (Tiers.has_node h₃ h₄)

theorem linkAt_before (hp : p.Shaped) (ha : p.tiers.Holds a) (hb : p.tiers.Holds b)
    (hm : a.Meets b → a = b) (hl : ∀ i, link = some i → i < noBlock) :
    (p.withLink (p.tiers.node b) link).linkAt a =
      if a = b then (link, (p.linkAt a).2) else p.linkAt a := by
  have he := hp.node_le hb
  rw [linkAt, tiers_withLink, region_withLink]
  by_cases hab : a = b
  · subst hab
    rw [if_pos rfl, Region.word_setWord (by omega), Region.word_setWord_ne _ _ (by omega),
      decodeLink_encodeLink hl]
    rfl
  · have hn := node_apart ha hb fun h => hab (hm h)
    rw [if_neg hab, Region.word_setWord_ne _ _ (by omega), Region.word_setWord_ne _ _ (by omega)]
    rfl

theorem linkAt_behind (hp : p.Shaped) (ha : p.tiers.Holds a) (hb : p.tiers.Holds b)
    (hm : a.Meets b → a = b) (hl : ∀ i, link = some i → i < noBlock) :
    (p.withLink (p.tiers.node b + 4) link).linkAt a =
      if a = b then ((p.linkAt a).1, link) else p.linkAt a := by
  have he := hp.node_le hb
  rw [linkAt, tiers_withLink, region_withLink]
  by_cases hab : a = b
  · subst hab
    rw [if_pos rfl, Region.word_setWord (by omega), Region.word_setWord_ne _ _ (by omega),
      decodeLink_encodeLink hl]
    rfl
  · have hn := node_apart ha hb fun h => hab (hm h)
    rw [if_neg hab, Region.word_setWord_ne _ _ (by omega), Region.word_setWord_ne _ _ (by omega)]
    rfl

end Shaped

end Buddy

end FixedPool
