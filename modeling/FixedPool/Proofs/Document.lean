import FixedPool.Document.Draft
import Mathlib.Data.List.Nodup

/-!
What is in a document that was read: no table has two entries under one key, and every integer has
64 bits with a sign.
-/

namespace FixedPool.Document

/-! ### Readers -/

namespace Reader

/-- Whatever the reader takes off the front of a text satisfies `P`. -/
def Gives {α : Type} (r : Reader α) (P : α → Prop) : Prop := ∀ s a s', r s = some (a, s') → P a

variable {α β : Type} {P : α → Prop} {Q : β → Prop} {r r' : Reader α}

theorem Gives.any : r.Gives fun _ => True := fun _ _ _ _ => trivial

theorem Gives.pure {a : α} (h : P a) : Gives (pure a) P := by
  rintro s _ _ ⟨⟩
  exact h

theorem Gives.failure : Gives failure P := by
  rintro s _ _ ⟨⟩

theorem Gives.lift {x : Option α} (h : ∀ a, x = some a → P a) : Gives (liftM x) P := by
  intro s a s' hr
  obtain ⟨b, hb, ⟨⟩⟩ := Option.bind_eq_some_iff.1 hr
  exact h a hb

theorem Gives.bind {f : α → Reader β} (hr : r.Gives P) (hf : ∀ a, P a → (f a).Gives Q) :
    Gives (r >>= f) Q := by
  intro s b s' h
  obtain ⟨⟨a, t⟩, ha, hb⟩ := Option.bind_eq_some_iff.1 h
  exact hf a (hr s a t ha) t b s' hb

/-- What the first reader takes may not matter. -/
theorem Gives.after {f : α → Reader β} (hf : ∀ a, (f a).Gives Q) : Gives (r >>= f) Q :=
  any.bind fun a _ => hf a

theorem Gives.map {f : α → β} (hr : r.Gives fun a => Q (f a)) : Gives (f <$> r) Q := by
  intro s b s' h
  obtain ⟨⟨a, t⟩, ha, ⟨⟩⟩ := Option.bind_eq_some_iff.1 h
  exact hr s a s' ha

theorem Gives.orElse (hr : r.Gives P) (hr' : r'.Gives P) : Gives (r <|> r') P := by
  intro s a s' h
  change (r s <|> r' s) = some (a, s') at h
  cases hs : r s with
  | none =>
    rw [hs] at h
    exact hr' s a s' h
  | some x =>
    rw [hs] at h
    cases h
    exact hr s a s' hs

theorem Gives.optional (hr : r.Gives P) : Gives (optional r) fun x => ∀ a ∈ x, P a := by
  refine Gives.orElse (.map fun s a s' h => ?_) (.pure fun _ hn => nomatch hn)
  rintro _ ⟨⟩
  exact hr s a s' h

theorem Gives.many (hr : r.Gives P) : (many r).Gives fun as => ∀ a ∈ as, P a := by
  intro s
  fun_induction Reader.many r s with
  | case1 s h =>
    rintro _ _ ⟨⟩
    exact List.forall_mem_nil P
  | case2 s a rest h hlt as rest' hmany ih =>
    rintro _ _ ⟨⟩
    exact List.forall_mem_cons.2 ⟨hr s a rest h, ih as rest' hmany⟩
  | case3 s a rest h hlt hmany ih =>
    rintro _ _ ⟨⟩
  | case4 s a rest h hlt =>
    rintro _ _ ⟨⟩
    exact List.forall_mem_singleton.2 (hr s a rest h)

theorem Gives.separated (hr : r.Gives P) (separator : Reader Unit) :
    (separated r separator).Gives fun as => ∀ a ∈ as, P a := by
  refine Gives.bind hr.optional fun first hfirst => ?_
  cases first with
  | none => exact .pure (List.forall_mem_nil P)
  | some a =>
    refine Gives.bind (Gives.many (.after fun _ => hr)) fun as has => .pure ?_
    exact List.forall_mem_cons.2 ⟨hfirst a rfl, has⟩

theorem Gives.foldlM {f : α → β → Reader α} {bs : List β} {a : α}
    (hf : ∀ a, ∀ b ∈ bs, P a → (f a b).Gives P) (ha : P a) : Gives (bs.foldlM f a) P := by
  induction bs generalizing a with
  | nil => exact .pure ha
  | cons b bs ih =>
    rw [List.foldlM_cons]
    refine Gives.bind (hf a b List.mem_cons_self ha) fun a' ha' => ih ?_ ha'
    exact fun a b hb => hf a b (List.mem_cons_of_mem _ hb)

end Reader

/-! ### Entries -/

mutual

/-- The integers of a value have 64 bits with a sign, and the keys of each of its tables differ. -/
inductive Node.Proper : Node → Prop
  | boolean (value : Bool) : Node.Proper (.boolean value)
  | integer {n : Int} : Int64.minValue.toInt ≤ n → n ≤ Int64.maxValue.toInt →
      Node.Proper (.integer n)
  | float (value : Float) : Node.Proper (.float value)
  | string (value : String) : Node.Proper (.string value)
  | moment : Node.Proper .moment
  | array {elements : List Node} : (∀ node ∈ elements, Node.Proper node) →
      Node.Proper (.array elements)
  | table {origin : Origin} {es : Entries} : Entries.Proper es → Node.Proper (.table origin es)
  | tables {elements : List Entries} : (∀ es ∈ elements, Entries.Proper es) →
      Node.Proper (.tables elements)

/-- The keys of a table differ, and its values are proper. -/
inductive Entries.Proper : Entries → Prop
  | intro {es : Entries} : (es.map (·.1)).Nodup → (∀ e ∈ es, Node.Proper e.2) → Entries.Proper es

end

namespace Node

theorem Proper.of_array {elements : List Node} (h : (Node.array elements).Proper) :
    ∀ node ∈ elements, node.Proper := by
  cases h with
  | array hs => exact hs

theorem Proper.of_table {origin : Origin} {es : Entries} (h : (Node.table origin es).Proper) :
    es.Proper := by
  cases h with
  | table hes => exact hes

theorem Proper.of_tables {elements : List Entries} (h : (Node.tables elements).Proper) :
    ∀ es ∈ elements, es.Proper := by
  cases h with
  | tables hs => exact hs

end Node

namespace Entries

variable {α : Type} {es es' : Entries} {key : String} {node : Node} {a : α}

theorem Proper.nil : Proper [] := .intro List.nodup_nil fun _ h => nomatch h

theorem Proper.keys (h : Proper es) : (es.map (·.1)).Nodup := by
  obtain ⟨hk, -⟩ := h
  exact hk

theorem Proper.nodes (h : Proper es) : ∀ e ∈ es, e.2.Proper := by
  obtain ⟨-, hn⟩ := h
  exact hn

theorem Proper.of_find? (h : Proper es) (hf : es.find? key = some node) : node.Proper := by
  obtain ⟨front, rest, rfl, -⟩ := List.lookup_eq_some_iff.1 hf
  exact h.nodes (key, node) (List.mem_append_right front List.mem_cons_self)

theorem Proper.concat (h : Proper es) (hf : es.find? key = none) (hn : node.Proper) :
    Proper (es ++ [(key, node)]) := by
  constructor
  · have hnew : key ∉ es.map (·.1) := by
      intro hk
      obtain ⟨e, he, rfl⟩ := List.mem_map.1 hk
      exact bne_iff_ne.1 (List.lookup_eq_none_iff.1 hf e he) rfl
    rw [List.map_append, List.map_singleton, ← List.concat_eq_append]
    exact h.keys.concat hnew
  · exact List.forall_mem_append.2 ⟨h.nodes, List.forall_mem_singleton.2 hn⟩

theorem Proper.put (h : Proper es) (hn : node.Proper) : Proper (es.put key node) := by
  unfold Entries.put
  split
  · have hkeys : (es.map fun e => if e.1 == key then (key, node) else e).map (·.1) =
        es.map (·.1) := by
      rw [List.map_map]
      apply List.map_congr_left
      intro e he
      by_cases hk : e.1 = key
      · simp [hk]
      · simp [hk]
    constructor
    · rw [hkeys]
      exact h.keys
    · intro e he
      obtain ⟨e', he', rfl⟩ := List.mem_map.1 he
      split
      · exact hn
      · exact h.nodes e' he'
  · next hf => exact h.concat (Option.not_isSome_iff_eq_none.1 hf) hn

theorem Proper.erase (h : Proper es) (key : String) : Proper (es.erase key) := by
  constructor
  · exact h.keys.sublist (List.filter_sublist.map _)
  · intro e he
    exact h.nodes e (List.mem_of_mem_filter he)

theorem Proper.add? (h : Proper es) (hn : node.Proper) (ha : es.add? key node = some es') :
    Proper es' := by
  unfold Entries.add? at ha
  split at ha
  · cases ha
  · next hf =>
    cases ha
    exact h.concat (Option.not_isSome_iff_eq_none.1 hf) hn

/-- What changes proper entries to proper ones does so at the end of a path. -/
theorem Proper.within {missing : Origin} {enter : List Origin} {path : List String}
    {origin : Origin} {act : Origin → Entries → Option (Entries × α)} {Q : α → Prop}
    (hact : ∀ origin es es' a, Proper es → act origin es = some (es', a) → Proper es' ∧ Q a)
    (h : Proper es) (hw : within missing enter act path origin es = some (es', a)) :
    Proper es' ∧ Q a := by
  induction path generalizing origin es es' a with
  | nil => exact hact origin es es' a h hw
  | cons key path ih =>
    unfold within at hw
    split at hw
    · obtain ⟨⟨sub, a⟩, hs, ⟨⟩⟩ := Option.bind_eq_some_iff.1 hw
      obtain ⟨hsub, ha⟩ := ih .nil hs
      exact ⟨h.put (.table hsub), ha⟩
    · next origin sub hf =>
      split at hw
      · obtain ⟨⟨sub', a⟩, hs, ⟨⟩⟩ := Option.bind_eq_some_iff.1 hw
        obtain ⟨hsub, ha⟩ := ih (h.of_find? hf).of_table hs
        exact ⟨h.put (.table hsub), ha⟩
      · cases hw
    · next elements hf =>
      obtain ⟨last, hlast, hw⟩ := Option.bind_eq_some_iff.1 hw
      obtain ⟨⟨sub, a⟩, hs, ⟨⟩⟩ := Option.bind_eq_some_iff.1 hw
      have helements := (h.of_find? hf).of_tables
      obtain ⟨hsub, ha⟩ := ih (helements last (List.mem_of_getLast? hlast)) hs
      have hfront : ∀ es ∈ elements.dropLast, Proper es :=
        fun es hes => helements es (List.dropLast_subset elements hes)
      have hback := List.forall_mem_singleton.2 hsub
      exact ⟨h.put (.tables (List.forall_mem_append.2 ⟨hfront, hback⟩)), ha⟩
    · cases hw

theorem Proper.assign? {path : List String} {enter : List Origin} {origin : Origin}
    (h : Proper es) (hn : node.Proper)
    (ha : es.assign? path key node enter origin = some es') : Proper es' := by
  obtain ⟨⟨es₁, u⟩, hw, ⟨⟩⟩ := Option.bind_eq_some_iff.1 ha
  refine (h.within (Q := fun _ => True) ?_ hw).1
  intro origin es es' u hes hact
  split at hact
  · cases hact
  · obtain ⟨es₂, hadd, ⟨⟩⟩ := Option.bind_eq_some_iff.1 hact
    exact ⟨hes.add? hn hadd, trivial⟩

end Entries

open Reader

/-! ### Values -/

theorem integerOf_gives (n : Int) : (integerOf n).Gives Node.Proper := by
  unfold integerOf
  split
  · next h => exact .pure (.integer h.1 h.2)
  · exact .failure

theorem integer_gives : integer.Gives Node.Proper :=
  have hbased (mark : Char) (base : Nat) : (basedInteger mark base).Gives Node.Proper :=
    .after fun _ => .after fun _ => .after fun _ => integerOf_gives _
  .orElse (hbased 'x' 16) (.orElse (hbased 'o' 8) (.orElse (hbased 'b' 2)
    (.after fun _ => .after fun _ => integerOf_gives _)))

theorem boolean_gives : boolean.Gives Node.Proper :=
  .orElse (.after fun _ => .pure (.boolean true)) (.after fun _ => .pure (.boolean false))

theorem decimalFloat_gives : decimalFloat.Gives Node.Proper := by
  have hfloat (negative : Bool) (x : Float) : Gives (do
      if x.isInf && !negative then
        failure
      return .float (if negative then -x else x)) Node.Proper := by
    by_cases hx : (x.isInf && !negative) = true
    · rw [if_pos hx]
      exact .after fun _ => .pure (.float _)
    · rw [if_neg hx]
      exact .pure (.float _)
  refine .after fun negative => .after fun _ => .after fun fraction => .after fun exponent => ?_
  dsimp only
  split
  · exact .after fun _ => hfloat negative _
  · exact hfloat negative _

theorem specialFloat_gives : specialFloat.Gives Node.Proper := by
  unfold specialFloat
  refine .after fun _ => .after fun found => ?_
  cases found with
  | none => exact .after fun _ => .pure (.float _)
  | some u => exact .pure (.float _)

theorem scalar_gives : scalar.Gives Node.Proper := by
  refine .after fun next => ?_
  cases next with
  | none => exact .failure
  | some c =>
    dsimp only
    split
    · exact .after fun _ => .pure (.string _)
    · exact .orElse boolean_gives (.orElse (.after fun _ => .pure .moment)
        (.orElse decimalFloat_gives (.orElse specialFloat_gives integer_gives)))

theorem array_gives {element : Reader Node} (h : element.Gives Node.Proper) :
    (array element).Gives Node.Proper := by
  have hitem : Gives (do gap; let node ← element; gap; return node) Node.Proper :=
    .after fun _ => h.bind fun node hn => .after fun _ => .pure hn
  refine .after fun _ => Gives.bind (hitem.separated _) fun elements he => ?_
  have hend : Gives (do gap; char ']'; return .array elements) Node.Proper :=
    .after fun _ => .after fun _ => .pure (.array he)
  split
  · exact .after fun _ => hend
  · exact hend

theorem inlineTable_gives {element : Reader Node} (h : element.Gives Node.Proper) :
    (inlineTable element).Gives Node.Proper := by
  have hitem : Gives (do
      let k ← key
      char '='
      blanks
      let node ← element
      blanks
      return (k, node)) fun assignment => assignment.2.Proper :=
    .after fun _ => .after fun _ => .after fun _ => h.bind fun node hn => .after fun _ => .pure hn
  refine .after fun _ => Gives.bind (hitem.separated _) fun assignments ha => ?_
  refine .after fun _ => .after fun _ => Gives.bind (Gives.foldlM ?_ Entries.Proper.nil)
    fun es hes => .pure (.table hes)
  exact fun es assignment hm hes => .lift fun es' hassign => hes.assign? (ha assignment hm) hassign

theorem value_gives (levels : Nat) : (value levels).Gives Node.Proper := by
  induction levels with
  | zero => exact scalar_gives
  | succ levels ih =>
    refine .after fun next => ?_
    split
    · exact array_gives ih
    · exact inlineTable_gives ih
    · exact scalar_gives

/-! ### Lines -/

/-- Only proper values are assigned. -/
def Statement.Proper : Statement → Prop
  | .assign _ _ node => node.Proper
  | .table _ _ => True
  | .element _ _ => True

theorem header_gives : header.Gives Statement.Proper :=
  .orElse (.after fun _ => .after fun _ => .after fun _ => .pure trivial)
    (.after fun _ => .after fun _ => .after fun _ => .pure trivial)

theorem assignment_gives : assignment.Gives Statement.Proper :=
  .after fun _ => .after fun _ => .after fun _ =>
    (value_gives mostLevels).bind fun _ hn => .pure hn

theorem line_gives : line.Gives fun x => ∀ statement ∈ x, statement.Proper := by
  refine .after fun _ => .after fun next => ?_
  cases next with
  | none => exact .failure
  | some c =>
    dsimp only
    split
    · exact .after fun _ => .pure fun _ hn => nomatch hn
    · have hsome (statement : Statement) (hs : statement.Proper) :
          Gives (do lineEnd; return some statement) fun x => ∀ s ∈ x, s.Proper := by
        refine .after fun _ => .pure ?_
        rintro _ ⟨⟩
        exact hs
      split
      · exact header_gives.bind hsome
      · exact assignment_gives.bind hsome

theorem statements_gives : statements.Gives fun lines => ∀ statement ∈ lines, statement.Proper := by
  refine .after fun _ => (Gives.many line_gives).bind fun lines hl => ?_
  refine .after fun _ => .after fun _ => .pure fun statement hs => ?_
  obtain ⟨x, hx, hs⟩ := List.mem_filterMap.1 hs
  exact hl x hx statement hs

/-! ### Documents -/

namespace Draft

variable {d d' : Draft} {root : Entries} {path : List String} {key : String}

/-- What is complete, and the table that is being filled, are proper. -/
structure Proper (d : Draft) : Prop where
  root : d.root.Proper
  current : d.current.Proper

theorem Proper.settle {es : Entries} (h : d.Proper) (hs : d.settle = some es) : es.Proper := by
  unfold Draft.settle at hs
  split at hs
  · cases hs
    exact h.current
  · next path key _ =>
    obtain ⟨⟨es, u⟩, hw, rfl⟩ := Option.map_eq_some_iff.1 hs
    refine (h.root.within (Q := fun _ => True) ?_ hw).1
    intro origin es es' u hes hact
    have hlast := List.forall_mem_singleton.2 h.current
    split at hact
    · cases hact
      exact ⟨hes.put (.tables hlast), trivial⟩
    · next elements hf =>
      cases hact
      have helements := (hes.of_find? hf).of_tables
      exact ⟨hes.put (.tables (List.forall_mem_append.2 ⟨helements, hlast⟩)), trivial⟩
    · cases hact
  · obtain ⟨⟨es, u⟩, hw, rfl⟩ := Option.map_eq_some_iff.1 hs
    refine (h.root.within (Q := fun _ => True) ?_ hw).1
    intro origin es es' u hes hact
    obtain ⟨es₁, hadd, ⟨⟩⟩ := Option.bind_eq_some_iff.1 hact
    exact ⟨hes.add? (.table h.current) hadd, trivial⟩
  · cases hs

theorem openTable_proper (h : root.Proper) (ho : openTable root path key = some d) : d.Proper := by
  obtain ⟨⟨root', current⟩, hw, ⟨⟩⟩ := Option.bind_eq_some_iff.1 ho
  have hact := h.within (Q := Entries.Proper) ?_ hw
  · exact ⟨hact.1, hact.2⟩
  intro origin es es' sub hes hact
  split at hact
  · cases hact
    exact ⟨hes, .nil⟩
  · next entries hf =>
    cases hact
    exact ⟨hes.erase key, (hes.of_find? hf).of_table⟩
  · cases hact

theorem openElement_proper (h : root.Proper) (ho : openElement root path key = some d) :
    d.Proper := by
  obtain ⟨⟨root', u⟩, hw, ⟨⟩⟩ := Option.bind_eq_some_iff.1 ho
  refine ⟨(h.within (Q := fun _ => True) ?_ hw).1, .nil⟩
  intro origin es es' u hes hact
  split at hact
  · cases hact
    exact ⟨hes.put (.tables fun _ h => nomatch h), trivial⟩
  · cases hact
    exact ⟨hes, trivial⟩
  · cases hact

theorem Proper.step {statement : Statement} (h : d.Proper) (hs : statement.Proper)
    (hd : d.step statement = some d') : d'.Proper := by
  cases statement with
  | assign path key node =>
    obtain ⟨es, ha, ⟨⟩⟩ := Option.bind_eq_some_iff.1 hd
    exact ⟨h.root, h.current.assign? hs ha⟩
  | table path key =>
    obtain ⟨root, hr, ho⟩ := Option.bind_eq_some_iff.1 hd
    exact openTable_proper (h.settle hr) ho
  | element path key =>
    obtain ⟨root, hr, ho⟩ := Option.bind_eq_some_iff.1 hd
    exact openElement_proper (h.settle hr) ho

theorem Proper.steps {lines : List Statement} (h : d.Proper) (hl : ∀ s ∈ lines, s.Proper)
    (hd : lines.foldlM Draft.step d = some d') : d'.Proper := by
  induction lines generalizing d with
  | nil =>
    cases hd
    exact h
  | cons statement lines ih =>
    rw [List.foldlM_cons] at hd
    obtain ⟨d₁, h₁, hd⟩ := Option.bind_eq_some_iff.1 hd
    exact ih (h.step (hl statement List.mem_cons_self) h₁)
      (fun s hs => hl s (List.mem_cons_of_mem _ hs)) hd

end Draft

/-- In a document that was read, the keys of every table differ and integers have 64 bits. -/
theorem proper_of_read? {source : String} {es : Entries} (h : read? source = some es) :
    es.Proper := by
  obtain ⟨⟨lines, rest⟩, hlines, h⟩ := Option.bind_eq_some_iff.1 h
  obtain ⟨d, hd, hs⟩ := Option.bind_eq_some_iff.1 h
  have hl := statements_gives _ _ _ hlines
  have hstart : Draft.start.Proper := ⟨.nil, .nil⟩
  exact (hstart.steps hl hd).settle hs

end FixedPool.Document
