import FixedPool.Registry.PlanDocument
import FixedPool.Proofs.Document
import FixedPool.Proofs.Steps
import Mathlib.Algebra.Group.Nat.Defs
import Mathlib.Data.List.Forall2

/-!
Which plan a document describes. A document may have an entry `slot` and no other. The entry lists
the pools, each as a table of just an `id` and a `size` or as an array that begins with these two. Any
other document is rejected.
-/

namespace FixedPool.Plan

open Document
set_option autoImplicit true

/-! ### What a document describes -/

/-- The entries give a slot and a size and nothing else, in either order. -/
def Specifies (es : Entries) (q : Request) : Prop :=
  es.Perm [("id", .integer q.slot), ("size", .integer q.size)]

/-- A node asks for one pool. -/
inductive Asks : Node → Request → Prop
  | table (origin : Origin) : Specifies es q → Asks (.table origin es) q
  | array (slot size : Nat) (rest : List Node) :
      Asks (.array (.integer slot :: .integer size :: rest)) ⟨slot, size⟩

/-- A node lists the pools to create. -/
inductive Lists : Node → List Request → Prop
  | array : List.Forall₂ Asks elements qs → Lists (.array elements) qs
  | tables : List.Forall₂ Specifies elements qs → Lists (.tables elements) qs

/-- The entries of a document describe a plan. -/
inductive Describes : Entries → Plan → Prop
  | nothing : Describes [] ⟨[]⟩
  | slots : Lists node qs → Describes [("slot", node)] ⟨qs⟩

/-! ### Reading a plan -/

theorem number_eq_ok : number node = .ok n ↔ node = .integer n := by
  constructor
  · intro h
    unfold number at h
    split at h
    · split at h
      · next h₀ =>
        cases h
        rw [Int.toNat_of_nonneg h₀]
      · cases h
    · cases h
  · rintro rfl
    rw [number, if_pos (Int.natCast_nonneg n)]
    rfl

namespace Given

variable {g g' : Given} {e : String × Node}

theorem step_eq_ok {key : String} : g.step (key, node) = .ok g' ↔ ∃ n : Nat,
    node = .integer n ∧ (key = "id" ∧ g' = { g with slot := some n } ∨
      key = "size" ∧ g' = { g with size := some n }) := by
  constructor
  · intro h
    unfold Given.step at h
    split at h
    · next hk =>
      obtain ⟨n, hn, ⟨⟩⟩ := Checked.bind_eq_ok.1 h
      exact ⟨n, number_eq_ok.1 hn, .inl ⟨hk, rfl⟩⟩
    · next hk =>
      obtain ⟨n, hn, ⟨⟩⟩ := Checked.bind_eq_ok.1 h
      exact ⟨n, number_eq_ok.1 hn, .inr ⟨hk, rfl⟩⟩
    · cases h
  · rintro ⟨n, rfl, ⟨rfl, rfl⟩ | ⟨rfl, rfl⟩⟩
    · exact Checked.bind_eq_ok.2 ⟨n, number_eq_ok.2 rfl, rfl⟩
    · exact Checked.bind_eq_ok.2 ⟨n, number_eq_ok.2 rfl, rfl⟩

/-- The entries that a table has given so far, a slot in front of a size. -/
def entries (g : Given) : Entries :=
  (g.slot.toList.map fun n => ("id", .integer n)) ++ g.size.toList.map fun n => ("size", .integer n)

theorem mem_entries_slot {n : Nat} : ("id", .integer n) ∈ g.entries ↔ g.slot = some n := by
  simp only [entries, List.mem_append, List.mem_map, Prod.mk.injEq, Node.integer.injEq,
    Int.natCast_inj]
  simp

theorem mem_entries_size {n : Nat} : ("size", .integer n) ∈ g.entries ↔ g.size = some n := by
  simp only [entries, List.mem_append, List.mem_map, Prod.mk.injEq, Node.integer.injEq,
    Int.natCast_inj]
  simp

theorem eq_of_entries (h : g.entries.Perm g'.entries) : g = g' := by
  have hslot : g.slot = g'.slot :=
    Option.ext fun n => mem_entries_slot.symm.trans (h.mem_iff.trans mem_entries_slot)
  have hsize : g.size = g'.size :=
    Option.ext fun n => mem_entries_size.symm.trans (h.mem_iff.trans mem_entries_size)
  cases g
  cases hslot
  cases hsize
  rfl

theorem step_of_entries (he : e ∈ g'.entries) : ∃ g₁, g.step e = .ok g₁ := by
  obtain he | he := List.mem_append.1 he
  · obtain ⟨n, -, rfl⟩ := List.mem_map.1 he
    exact ⟨_, step_eq_ok.2 ⟨n, rfl, .inl ⟨rfl, rfl⟩⟩⟩
  · obtain ⟨n, -, rfl⟩ := List.mem_map.1 he
    exact ⟨_, step_eq_ok.2 ⟨n, rfl, .inr ⟨rfl, rfl⟩⟩⟩

/-- An entry under a new key is given behind the others. -/
theorem entries_step (h : g.step e = .ok g') (hk : e.1 ∉ g.entries.map (·.1)) :
    g'.entries.Perm (g.entries ++ [e]) := by
  obtain ⟨slot, size⟩ := g
  obtain ⟨key, node⟩ := e
  obtain ⟨n, rfl, ⟨rfl, rfl⟩ | ⟨rfl, rfl⟩⟩ := step_eq_ok.1 h
  · cases slot with
    | none => exact List.perm_append_comm
    | some m => exact absurd List.mem_cons_self hk
  · cases size with
    | none => simp [entries]
    | some m => simp [entries] at hk

/-- Reading entries under distinct keys gives these entries. -/
theorem foldlM_step_eq_ok (hk : ((g.entries ++ es).map (·.1)).Nodup) :
    es.foldlM step g = .ok g' ↔ g'.entries.Perm (g.entries ++ es) := by
  induction es generalizing g with
  | nil =>
    rw [List.append_nil]
    constructor
    · rintro ⟨⟩
      exact .refl _
    · intro h
      exact congrArg Except.ok (eq_of_entries h).symm
  | cons e es ih =>
    have hnew : e.1 ∉ g.entries.map (·.1) := by
      rw [List.map_append, List.nodup_append] at hk
      exact fun hm => hk.2.2 e.1 hm e.1 List.mem_cons_self rfl
    have hnext {g₁ : Given} (h₁ : g.step e = .ok g₁) :
        (g₁.entries ++ es).Perm (g.entries ++ e :: es) := by
      have := (entries_step h₁ hnew).append_right es
      rwa [List.append_assoc, List.singleton_append] at this
    have hrest {g₁ : Given} (h₁ : g.step e = .ok g₁) :=
      ih (g := g₁) (((hnext h₁).map (·.1)).nodup_iff.2 hk)
    rw [List.foldlM_cons, Checked.bind_eq_ok]
    constructor
    · rintro ⟨g₁, h₁, h⟩
      exact ((hrest h₁).1 h).trans (hnext h₁)
    · intro h
      obtain ⟨g₁, h₁⟩ := step_of_entries (g := g)
        (h.mem_iff.2 (List.mem_append_right _ List.mem_cons_self))
      exact ⟨g₁, h₁, (hrest h₁).2 (h.trans (hnext h₁).symm)⟩

end Given

theorem requestOfEntries_eq_ok {q : Request} (h : Entries.Proper es) :
    requestOfEntries es = .ok q ↔ Specifies es q := by
  have hfold (g : Given) : es.foldlM Given.step ⟨none, none⟩ = .ok g ↔ g.entries.Perm es :=
    Given.foldlM_step_eq_ok h.keys
  constructor
  · intro hr
    obtain ⟨⟨slot, size⟩, hf, hr⟩ := Checked.bind_eq_ok.1 hr
    cases slot with
    | none => cases hr
    | some slot =>
      cases size with
      | none => cases hr
      | some size =>
        cases hr
        exact ((hfold _).1 hf).symm
  · intro hg
    exact Checked.bind_eq_ok.2 ⟨⟨some q.slot, some q.size⟩, (hfold _).2 hg.symm, rfl⟩

theorem mapM_eq_ok {f : α → Except ε β} {R : α → β → Prop} {as : List α} {bs : List β}
    (h : ∀ a ∈ as, ∀ b, f a = .ok b ↔ R a b) : as.mapM f = .ok bs ↔ List.Forall₂ R as bs := by
  induction as generalizing bs with
  | nil =>
    rw [List.forall₂_nil_left_iff]
    exact ⟨fun he => (Except.ok.inj he).symm, fun he => he ▸ rfl⟩
  | cons a as ih =>
    have hrest {bs : List β} : as.mapM f = .ok bs ↔ List.Forall₂ R as bs :=
      ih fun a ha => h a (List.mem_cons_of_mem _ ha)
    rw [List.mapM_cons, Checked.bind_eq_ok, List.forall₂_cons_left_iff]
    constructor
    · rintro ⟨b, hb, hbs⟩
      obtain ⟨bs, hm, ⟨⟩⟩ := Checked.bind_eq_ok.1 hbs
      exact ⟨b, bs, (h a List.mem_cons_self b).1 hb, hrest.1 hm, rfl⟩
    · rintro ⟨b, bs, hb, hbs, rfl⟩
      exact ⟨b, (h a List.mem_cons_self b).2 hb, Checked.bind_eq_ok.2 ⟨bs, hrest.2 hbs, rfl⟩⟩

theorem request_eq_ok {q : Request} (h : node.Proper) : request node = .ok q ↔ Asks node q := by
  constructor
  · intro hr
    unfold request at hr
    split at hr
    · exact .table _ ((requestOfEntries_eq_ok h.of_table).1 hr)
    · cases hr
    · obtain ⟨n, -, hr⟩ := Checked.bind_eq_ok.1 hr
      cases hr
    · obtain ⟨n, hn, hr⟩ := Checked.bind_eq_ok.1 hr
      obtain ⟨m, hm, ⟨⟩⟩ := Checked.bind_eq_ok.1 hr
      rw [number_eq_ok.1 hn, number_eq_ok.1 hm]
      exact .array n m _
    · cases hr
    · cases hr
  · intro ha
    cases ha with
    | table origin hs => exact (requestOfEntries_eq_ok h.of_table).2 hs
    | array slot size rest =>
      exact Checked.bind_eq_ok.2 ⟨slot, number_eq_ok.2 rfl,
        Checked.bind_eq_ok.2 ⟨size, number_eq_ok.2 rfl, rfl⟩⟩

theorem requestList_eq_ok (h : node.Proper) : requestList node = .ok qs ↔ Lists node qs := by
  constructor
  · intro hr
    unfold requestList at hr
    split at hr
    · exact .array ((mapM_eq_ok fun n hn q => request_eq_ok (h.of_array n hn)).1 hr)
    · exact .tables
        ((mapM_eq_ok fun es hes q => requestOfEntries_eq_ok (h.of_tables es hes)).1 hr)
    · cases hr
  · intro hl
    cases hl with
    | array ha => exact (mapM_eq_ok fun n hn q => request_eq_ok (h.of_array n hn)).2 ha
    | tables hs =>
      exact (mapM_eq_ok fun es hes q => requestOfEntries_eq_ok (h.of_tables es hes)).2 hs

theorem step_eq_ok {plan plan' : Plan} {key : String} : step plan (key, node) = .ok plan' ↔
    key = "slot" ∧ ∃ qs, requestList node = .ok qs ∧ plan' = ⟨qs⟩ := by
  constructor
  · intro h
    unfold step at h
    split at h
    · next hk =>
      obtain ⟨qs, hqs, ⟨⟩⟩ := Checked.bind_eq_ok.1 h
      exact ⟨hk, qs, hqs, rfl⟩
    · cases h
  · rintro ⟨rfl, qs, hqs, rfl⟩
    exact Checked.bind_eq_ok.2 ⟨qs, hqs, rfl⟩

theorem foldlM_step_eq_ok {plan : Plan} (h : Entries.Proper es) :
    es.foldlM step ⟨[]⟩ = .ok plan ↔ Describes es plan := by
  constructor
  · intro hf
    cases es with
    | nil =>
      cases hf
      exact .nothing
    | cons e es =>
      rw [List.foldlM_cons] at hf
      obtain ⟨plan₁, h₁, hf⟩ := Checked.bind_eq_ok.1 hf
      obtain ⟨key, node⟩ := e
      obtain ⟨rfl, qs, hqs, rfl⟩ := step_eq_ok.1 h₁
      cases es with
      | nil =>
        cases hf
        exact .slots ((requestList_eq_ok (h.nodes _ List.mem_cons_self)).1 hqs)
      | cons e' es =>
        -- The second entry would be one under the same key.
        rw [List.foldlM_cons] at hf
        obtain ⟨plan₂, h₂, -⟩ := Checked.bind_eq_ok.1 hf
        have hkey := (step_eq_ok.1 h₂).1
        have hkeys := h.keys
        rw [List.map_cons, List.map_cons, hkey] at hkeys
        exact absurd List.mem_cons_self (List.nodup_cons.1 hkeys).1
  · intro hd
    cases hd with
    | nothing => rfl
    | slots hl =>
      have hqs := (requestList_eq_ok (h.nodes _ List.mem_cons_self)).2 hl
      rw [List.foldlM_cons]
      exact Checked.bind_eq_ok.2 ⟨_, step_eq_ok.2 ⟨rfl, _, hqs, rfl⟩, rfl⟩

theorem ofDocument_of_read? (h : read? source = some es) :
    ofDocument source = es.foldlM step ⟨[]⟩ := by
  rw [ofDocument, h]

/-- A text is read as a plan exactly if it writes a document that describes the plan. -/
theorem ofDocument_eq_ok {plan : Plan} :
    ofDocument source = .ok plan ↔ ∃ es, read? source = some es ∧ Describes es plan := by
  constructor
  · intro h
    cases hs : read? source with
    | none =>
      rw [ofDocument, hs] at h
      cases h
    | some es =>
      rw [ofDocument_of_read? hs] at h
      exact ⟨es, rfl, (foldlM_step_eq_ok (proper_of_read? hs)).1 h⟩
  · rintro ⟨es, hs, hd⟩
    rw [ofDocument_of_read? hs]
    exact (foldlM_step_eq_ok (proper_of_read? hs)).2 hd

example : ofDocument "[[slot]]\nid = 3\nsize = 64\n" = .ok ⟨[⟨3, 64⟩]⟩ := by cbv

/-! ### Documents that describe no plan -/

/-- The only failures are rejections. -/
def Rejects (x : Except Error α) : Prop :=
  ∀ cause, x = .error cause → ∃ reason, cause = .rejected reason

namespace Rejects

theorem ok (a : α) : Rejects (.ok a) := by
  rintro cause ⟨⟩

theorem rejected (reason : String) : Rejects (.error (.rejected reason) : Except Error α) := by
  rintro cause ⟨⟩
  exact ⟨reason, rfl⟩

theorem bind {x : Except Error α} {f : α → Except Error β} (hx : Rejects x)
    (hf : ∀ a, Rejects (f a)) : Rejects (x >>= f) := by
  cases x with
  | error cause => exact fun cause' h => hx cause' (congrArg Except.error (Except.error.inj h))
  | ok a => exact hf a

theorem mapM {f : α → Except Error β} (hf : ∀ a, Rejects (f a)) (as : List α) :
    Rejects (as.mapM f) := by
  induction as with
  | nil => exact ok []
  | cons a as ih =>
    rw [List.mapM_cons]
    exact (hf a).bind fun b => ih.bind fun bs => ok (b :: bs)

theorem foldlM {f : β → α → Except Error β} (hf : ∀ b a, Rejects (f b a)) (as : List α) (b : β) :
    Rejects (as.foldlM f b) := by
  induction as generalizing b with
  | nil => exact ok b
  | cons a as ih =>
    rw [List.foldlM_cons]
    exact (hf b a).bind ih

end Rejects

theorem rejects_number (node : Node) : Rejects (number node) := by
  unfold number
  split
  · split
    · exact .ok _
    · exact .rejected _
  · exact .rejected _

theorem Given.rejects_step (g : Given) (e : String × Node) : Rejects (g.step e) := by
  unfold step
  split
  · exact (rejects_number _).bind fun _ => .ok _
  · exact (rejects_number _).bind fun _ => .ok _
  · exact .rejected _

theorem rejects_requestOfEntries (es : Entries) : Rejects (requestOfEntries es) := by
  refine (Rejects.foldlM Given.rejects_step es _).bind fun g => ?_
  split
  · exact .ok _
  · exact .rejected _
  · exact .rejected _

theorem rejects_request (node : Node) : Rejects (request node) := by
  unfold request
  split
  · exact rejects_requestOfEntries _
  · exact .rejected _
  · exact (rejects_number _).bind fun _ => .rejected _
  · exact (rejects_number _).bind fun _ => (rejects_number _).bind fun _ => .ok _
  · exact .rejected _
  · exact .rejected _

theorem rejects_requestList (node : Node) : Rejects (requestList node) := by
  unfold requestList
  split
  · exact .mapM rejects_request _
  · exact .mapM rejects_requestOfEntries _
  · exact .rejected _

theorem rejects_step (plan : Plan) (e : String × Node) : Rejects (step plan e) := by
  unfold step
  split
  · exact (rejects_requestList _).bind fun _ => .ok _
  · exact .rejected _

theorem rejects_ofDocument (h : read? source = some es) : Rejects (ofDocument source) := by
  rw [ofDocument_of_read? h]
  exact .foldlM rejects_step es _

/-- Bytes that are no text cannot be read, a text that writes no document is malformed, and a
document that describes no plan is rejected. -/
theorem load_cases (source : Option ByteArray) :
    (source.bind String.fromUTF8? = none ∧ load source = .error .unreadable) ∨
    ∃ text, source.bind String.fromUTF8? = some text ∧
      ((read? text = none ∧ load source = .error .malformed) ∨
      ∃ es, read? text = some es ∧
        ((∃ plan, Describes es plan ∧ load source = .ok plan) ∨
        (∀ plan, ¬ Describes es plan) ∧ ∃ reason, load source = .error (.rejected reason))) := by
  unfold load
  cases source.bind String.fromUTF8? with
  | none => exact .inl ⟨rfl, rfl⟩
  | some text =>
    refine .inr ⟨text, rfl, ?_⟩
    dsimp only
    cases hs : read? text with
    | none =>
      rw [ofDocument, hs]
      exact .inl ⟨rfl, rfl⟩
    | some es =>
      refine .inr ⟨es, rfl, ?_⟩
      cases hp : ofDocument text with
      | ok plan =>
        obtain ⟨es', hs', hd⟩ := ofDocument_eq_ok.1 hp
        rw [hs] at hs'
        cases hs'
        exact .inl ⟨plan, hd, rfl⟩
      | error cause =>
        obtain ⟨reason, rfl⟩ := rejects_ofDocument hs cause hp
        refine .inr ⟨fun plan hd => ?_, reason, rfl⟩
        have hok := ofDocument_eq_ok.2 ⟨es, hs, hd⟩
        rw [hp] at hok
        cases hok

/-! ### The numbers of a plan -/

/-- The slot and the size are integers of 64 bits that are not negative. -/
def Bounded (q : Request) : Prop := q.slot < 2 ^ 63 ∧ q.size < 2 ^ 63

theorem lt_of_proper {n : Nat} (h : (Node.integer n).Proper) : n < 2 ^ 63 := by
  cases h with
  | integer _ hn =>
    have hmost : Int64.maxValue.toInt = 9223372036854775807 := rfl
    omega

theorem Specifies.bounded (h : Specifies es q) (hp : Entries.Proper es) : Bounded q :=
  ⟨lt_of_proper (hp.nodes _ (h.mem_iff.2 List.mem_cons_self)),
    lt_of_proper (hp.nodes _ (h.mem_iff.2 (List.mem_cons_of_mem _ List.mem_cons_self)))⟩

theorem Asks.bounded (h : Asks node q) (hp : node.Proper) : Bounded q := by
  cases h with
  | table origin hs => exact hs.bounded hp.of_table
  | array slot size rest =>
    exact ⟨lt_of_proper (hp.of_array _ List.mem_cons_self),
      lt_of_proper (hp.of_array _ (List.mem_cons_of_mem _ List.mem_cons_self))⟩

theorem exists_of_forall₂ {R : α → β → Prop} {as : List α} {bs : List β} (h : List.Forall₂ R as bs)
    (hb : b ∈ bs) : ∃ a ∈ as, R a b := by
  induction h with
  | nil => cases hb
  | cons hab _ ih =>
    obtain rfl | hb := List.mem_cons.1 hb
    · exact ⟨_, List.mem_cons_self, hab⟩
    · obtain ⟨a, ha, h⟩ := ih hb
      exact ⟨a, List.mem_cons_of_mem _ ha, h⟩

theorem Lists.bounded (h : Lists node qs) (hp : node.Proper) : ∀ q ∈ qs, Bounded q := by
  intro q hq
  cases h with
  | array ha =>
    obtain ⟨n, hn, hnq⟩ := exists_of_forall₂ ha hq
    exact hnq.bounded (hp.of_array n hn)
  | tables hs =>
    obtain ⟨es, hes, hesq⟩ := exists_of_forall₂ hs hq
    exact hesq.bounded (hp.of_tables es hes)

theorem Describes.bounded (h : Describes es plan) (hp : Entries.Proper es) :
    ∀ q ∈ plan.requests, Bounded q := by
  cases h with
  | nothing => exact fun _ hq => nomatch hq
  | slots hl => exact hl.bounded (hp.nodes _ List.mem_cons_self)

/-- Every slot and every size of a plan that was loaded has at most 63 bits. -/
theorem bounded_of_load (h : load source = .ok plan) : ∀ q ∈ plan.requests, Bounded q := by
  obtain ⟨-, hl⟩ | ⟨text, -, ⟨-, hl⟩ | ⟨es, hs, ⟨plan, hd, hl⟩ | ⟨-, reason, hl⟩⟩⟩ :=
    load_cases source
  all_goals
    rw [hl] at h
    cases h
  -- Only the case in which there is a plan is left.
  exact hd.bounded (proper_of_read? hs)

end FixedPool.Plan
