import OwnOS.Que.Model
import OwnOS.Lib.Chain

/-!
# `Que` is a list

The list a queue stands for has the newest element first. `Rep q h t ids` is the representation: the
sentinels `h` and `t` with the entries `ids` between them form a doubly linked chain of distinct
entries, which are the entries of the pool that are not free.

* `Rep.enque`, `Rep.deque`, `Rep.dequeOf`: each call on a represented queue returns, with the result
  and the new entries that the list gives.
* `que_refines`: every sequence of calls that does not put more than `N` elements into the queue.
-/

namespace OwnOS.Que

open OwnOS.Lib

variable {T : Type} {N : Nat}

/-! ## The list -/

/-- What a call does to the list. -/
def listStep (eq : T → T → Bool) (invalid : T) (l : List T) : Op T → Option T × List T
  | .enque t => (none, t :: l)
  | .deque => (some (l.getLast?.getD invalid), l.dropLast)
  | .dequeOf a => (some ((l.find? (eq · a)).getD invalid), l.eraseP (eq · a))

/-- What a sequence of calls does to the list. -/
def listRun (eq : T → T → Bool) (invalid : T) (l : List T) : List (Op T) → List (Option T) × List T
  | [] => ([], l)
  | o :: os =>
    let (r, l) := listStep eq invalid l o
    let (rs, l) := listRun eq invalid l os
    (r :: rs, l)

/-- `enque` is only called while fewer than `N` elements are held. -/
def Room (N : Nat) (eq : T → T → Bool) (invalid : T) (l : List T) : List (Op T) → Prop
  | [] => True
  | o :: os => (∀ t, o = .enque t → l.length < N) ∧ Room N eq invalid (listStep eq invalid l o).2 os

/-- **What the queue looks like when it holds the list `l`.** -/
structure Holds (q : Que T N) (l : List T) : Prop where
  num : q.num = l.length
  /-- `next` leads from `head` to `tail`, `prev` back through the same entries, and these are the
  ones that are not free, with the sentinels. -/
  entries : ∃ h t ids, q.head = some h ∧ q.tail = some t ∧ ids.map q.content = l ∧
    Follows q.next h (ids ++ [t]) ∧ Follows q.prev t (ids.reverse ++ [h]) ∧
    ∀ i, q.isFree i = false ↔ i = h ∨ i = t ∨ i ∈ ids
  /-- An empty queue is left alone. -/
  empty : l = [] → q.deque = .ok (q.invalid, q)
  /-- An element that is not there is not removed. -/
  absent : ∀ (eq : T → T → Bool) (a : T), (∀ x ∈ l, eq x a = false) →
    q.dequeOf eq a = .ok (q.invalid, q)

/-! ## The representation -/

/-- The pointers of the entries. -/
def links (q : Que T N) : DLinks (Ptr N) := ⟨q.next, q.prev⟩

/-- The entries between the sentinels are `ids`. -/
structure Rep (q : Que T N) (h t : Ptr N) (ids : List (Ptr N)) : Prop where
  head : q.head = some h
  tail : q.tail = some t
  num : q.num = ids.length
  chain : q.links.Chain (h :: (ids ++ [t]))
  nodup : (h :: (ids ++ [t])).Nodup
  isFree : ∀ i, q.isFree i = false ↔ i ∈ h :: (ids ++ [t])

variable {q q' : Que T N} {h t a : Ptr N} {ids pre post : List (Ptr N)} {eq : T → T → Bool} {x : T}

@[simp] theorem follow_some {α : Type} (x : α) : follow (some x) = .ok x := rfl

/-- There is a free entry while fewer than `N` are in the list. -/
theorem Rep.get (hr : Rep q h t ids) (hlt : ids.length < N) : ∃ i, i ∉ h :: (ids ++ [t]) ∧
    q.get = ({ q with isFree := Function.update q.isFree i false }, some i) := by
  cases hf : (List.finRange (N + 2)).find? q.isFree with
  | none =>
    have hall : List.finRange (N + 2) ⊆ h :: (ids ++ [t]) := by
      intro i hi
      rw [List.find?_eq_none] at hf
      exact (hr.isFree i).mp (by simpa using hf i hi)
    have hle := (List.subperm_of_subset (List.nodup_finRange _) hall).length_le
    simp only [List.length_finRange, List.length_cons, List.length_append, List.length_nil] at hle
    omega
  | some i =>
    refine ⟨i, ?_, by simp [Que.get, hf]⟩
    intro hm
    have := (hr.isFree i).mpr hm
    simp [List.find?_some hf] at this

/-! ## The calls -/

/-- The queue after `enque` into the free entry `i`, before the first entry `n`: two joins. -/
theorem enque_eq {i n : Ptr N} (hh : q.head = some h) (hnum : q.num ≤ N) (hn : q.next h = some n)
    (hget : q.get = ({ q with isFree := Function.update q.isFree i false }, some i)) (hni : n ≠ i) :
    q.enque x = .ok { q with
      num := q.num + 1
      next := ((q.links.join i n).join h i).next
      prev := ((q.links.join i n).join h i).prev
      content := Function.update q.content i x
      isFree := Function.update q.isFree i false } := by
  unfold Que.enque
  rw [if_neg (Nat.not_lt.mpr hnum)]
  simp only [hh, hn, hget, follow_some, Res.ok_bind, setNext, setPrev,
    setContent, links, DLinks.join]
  rw [Function.update_comm hni]

/-- `enque` puts a new entry first. -/
theorem Rep.enque (hr : Rep q h t ids) (hlt : ids.length < N) : ∃ i q', q.enque x = .ok q' ∧
    Rep q' h t (i :: ids) ∧ q'.content i = x ∧ (∀ j ∈ ids, q'.content j = q.content j) ∧
    q'.invalid = q.invalid := by
  obtain ⟨i, hi, hget⟩ := hr.get hlt
  obtain ⟨n, l, hn⟩ : ∃ n l, ids ++ [t] = n :: l := by
    cases ids with
    | nil => exact ⟨t, [], rfl⟩
    | cons n l => exact ⟨n, l ++ [t], rfl⟩
  have hchain := hr.chain
  have hnd := hr.nodup
  have hfree := hr.isFree
  rw [hn] at hchain hnd hi hfree
  have hnext : q.next h = some n := (List.isChain_cons_cons.mp hchain).1.1
  have hnd' : (h :: i :: n :: l).Nodup := by
    obtain ⟨hh, hl⟩ := List.nodup_cons.mp hnd
    refine List.nodup_cons.mpr
      ⟨?_, List.nodup_cons.mpr ⟨fun hm => hi (List.mem_cons_of_mem _ hm), hl⟩⟩
    intro hm
    rcases List.mem_cons.mp hm with rfl | hm
    · exact hi List.mem_cons_self
    · exact hh hm
  have hni : n ≠ i := by
    rintro rfl
    exact hi (List.mem_cons_of_mem _ List.mem_cons_self)
  have hnum : q.num ≤ N := by
    rw [hr.num]
    exact Nat.le_of_lt hlt
  refine ⟨i, _, enque_eq hr.head hnum hnext hget hni, ⟨hr.head, hr.tail, ?_, ?_, ?_, ?_⟩,
    ?_, ?_, rfl⟩
  · exact congrArg (· + 1) hr.num
  · rw [List.cons_append, hn]
    have hchain' : q.links.Chain ([] ++ h :: n :: l) := hchain
    exact hchain'.insert hnd'
  · rw [List.cons_append, hn]
    exact hnd'
  · intro j
    rw [List.cons_append, hn, List.mem_cons, List.mem_cons]
    by_cases hj : j = i
    · simp [hj]
    · simp only [Function.update_of_ne hj]
      rw [hfree j, List.mem_cons]
      tauto
  · exact Function.update_self ..
  · intro j hj
    refine Function.update_of_ne ?_ _ _
    rintro rfl
    exact hi (hn ▸ List.mem_cons_of_mem _ (List.mem_append_left _ hj))

/-- The queue without the entry `a`, between `x` and `y`: one join. -/
def without (q : Que T N) (x a y : Ptr N) : Que T N :=
  { q with
    num := q.num - 1
    next := (q.links.join x y).next
    prev := (q.links.join x y).prev
    isFree := Function.update q.isFree a true }

/-- An entry of the list has its two neighbours. -/
theorem Rep.neighbours (hr : Rep q h t (pre ++ a :: post)) : ∃ x y l₁ l₂,
    h :: (pre ++ a :: post ++ [t]) = l₁ ++ x :: a :: y :: l₂ ∧ h :: (pre ++ post ++ [t]) =
      l₁ ++ x :: y :: l₂ ∧
    q.next x = some a ∧ q.prev a = some x ∧ q.next a = some y ∧ q.prev y = some a := by
  obtain ⟨l₁, x, hx⟩ : ∃ l₁ x, h :: pre = l₁ ++ [x] :=
    ⟨_, _, (List.dropLast_append_getLast (List.cons_ne_nil h pre)).symm⟩
  obtain ⟨y, l₂, hy⟩ : ∃ y l₂, post ++ [t] = y :: l₂ := by
    cases post with
    | nil => exact ⟨t, [], rfl⟩
    | cons y l => exact ⟨y, l ++ [t], rfl⟩
  have hwith : h :: (pre ++ a :: post ++ [t]) = l₁ ++ x :: a :: y :: l₂ := by
    calc h :: (pre ++ a :: post ++ [t]) = (h :: pre) ++ a :: (post ++ [t]) := by simp
      _ = l₁ ++ x :: a :: y :: l₂ := by simp [hx, hy]
  have hwithout : h :: (pre ++ post ++ [t]) = l₁ ++ x :: y :: l₂ := by
    calc h :: (pre ++ post ++ [t]) = (h :: pre) ++ (post ++ [t]) := by simp
      _ = l₁ ++ x :: y :: l₂ := by simp [hx, hy]
  have hchain := hr.chain
  rw [hwith] at hchain
  obtain ⟨-, hxa, hrest⟩ := DLinks.chain_append_cons.mp hchain
  obtain ⟨hay, -⟩ := List.isChain_cons_cons.mp hrest
  exact ⟨x, y, l₁, l₂, hwith, hwithout, hxa.1, hxa.2, hay.1, hay.2⟩

/-- Taking an entry out of the list. -/
theorem Rep.without (hr : Rep q h t (pre ++ a :: post)) :
    ∃ x y, q.prev a = some x ∧ q.next a = some y ∧
    (post = [] → y = t) ∧ Rep (q.without x a y) h t (pre ++ post) := by
  obtain ⟨x, y, l₁, l₂, hwith, hwithout, -, hax, hay, -⟩ := hr.neighbours
  have hchain := hr.chain
  have hnd := hr.nodup
  have hfree := hr.isFree
  rw [hwith] at hchain hnd hfree
  refine ⟨x, y, hax, hay, ?_, hr.head, hr.tail, ?_, ?_, ?_, ?_⟩
  · rintro rfl
    have hlast := hr.chain
    rw [List.append_assoc, List.cons_append, List.nil_append, ← List.cons_append] at hlast
    obtain ⟨-, hat, -⟩ := DLinks.chain_append_cons.mp hlast
    exact Option.some.inj (hay.symm.trans hat.1)
  · have := hr.num
    simp only [List.length_append, List.length_cons, Que.without] at this ⊢
    omega
  · rw [hwithout]
    exact hchain.unlink hnd
  · rw [hwithout]
    refine hnd.sublist ?_
    exact List.Sublist.append_left (List.Sublist.cons_cons _ (List.sublist_cons_self _ _)) _
  · intro j
    rw [hwithout]
    have hperm : (l₁ ++ x :: a :: y :: l₂).Perm (a :: (l₁ ++ x :: y :: l₂)) := by
      refine List.Perm.trans ?_ List.perm_middle
      exact List.Perm.append_left _ (List.Perm.swap a x _)
    obtain ⟨ha, -⟩ := List.nodup_cons.mp (hperm.nodup_iff.mp hnd)
    by_cases hj : j = a
    · simp [Que.without, hj, ha]
    · simp only [Que.without, Function.update_of_ne hj]
      rw [hfree j, hperm.mem_iff, List.mem_cons]
      simp [hj]

/-- `deque()` takes the last entry. -/
theorem Rep.deque (hr : Rep q h t (pre ++ [a])) : ∃ q', q.deque = .ok (q.content a, q') ∧
    Rep q' h t pre ∧ q'.content = q.content ∧ q'.invalid = q.invalid := by
  obtain ⟨x, y, hx, hy, ht, hr'⟩ := hr.without
  obtain rfl := ht rfl
  have hnum : q.num ≠ 0 := by
    rw [hr.num]
    simp
  have hprev : q.prev y = some a := by
    have hchain := hr.chain
    rw [List.append_assoc, List.singleton_append, ← List.cons_append] at hchain
    exact (DLinks.chain_append_cons.mp hchain).2.1.2
  refine ⟨q.without x a y, ?_, by simpa using hr', rfl, rfl⟩
  unfold Que.deque
  rw [if_neg hnum]
  simp only [hr.tail, hprev, hx, follow_some, Res.ok_bind]
  rfl

/-- `deque(a)` with the entry in hand. -/
theorem Rep.take (hr : Rep q h t (pre ++ a :: post)) : ∃ q', q.take a = .ok (q.content a, q') ∧
    Rep q' h t (pre ++ post) ∧ q'.content = q.content ∧ q'.invalid = q.invalid := by
  obtain ⟨x, y, hx, hy, -, hr'⟩ := hr.without
  refine ⟨q.without x a y, ?_, hr', rfl, rfl⟩
  unfold Que.take
  simp only [hx, hy, follow_some, Res.ok_bind]
  rfl

/-- The loop of `deque(a)`, with the entries `pre` behind it. -/
theorem Rep.dequeOfLoop (eq : T → T → Bool) (y : T) (pre : List (Ptr N)) : ∀ {rest : List (Ptr N)},
    Rep q h t (pre ++ rest) → ∃ q' ids',
      q.dequeOfLoop eq y rest.length (rest ++ [t]).head? =
        .ok (((rest.map q.content).find? (eq · y)).getD q.invalid, q') ∧
      Rep q' h t (pre ++ ids') ∧ ids'.map q.content = (rest.map q.content).eraseP (eq · y) ∧
      q'.content = q.content ∧ q'.invalid = q.invalid ∧
      ((∀ z ∈ rest.map q.content, eq z y = false) → q' = q)
  | [], hr => ⟨q, [], rfl, hr, rfl, rfl, rfl, fun _ => rfl⟩
  | c :: rest, hr => by
    cases heq : eq (q.content c) y with
    | true =>
      obtain ⟨q', hq', hr', hc, hi⟩ := hr.take
      refine ⟨q', rest, ?_, hr', ?_, hc, hi, ?_⟩
      · simp [Que.dequeOfLoop, heq, hq']
      · simp [heq]
      · intro hall
        simp [hall (q.content c) (by simp)] at heq
    | false =>
      have hassoc : pre ++ c :: rest = (pre ++ [c]) ++ rest := by simp
      obtain ⟨q', ids', hq', hr', hids, hc, hi, hsame⟩ :=
        Rep.dequeOfLoop eq y (pre ++ [c]) (hassoc ▸ hr)
      have hnext : q.next c = (rest ++ [t]).head? := by
        have hchain := hr.chain
        rw [List.append_assoc, List.cons_append, ← List.cons_append] at hchain
        cases rest with
        | nil => exact (DLinks.chain_append_cons.mp hchain).2.1.1
        | cons d rest => exact (DLinks.chain_append_cons.mp hchain).2.1.1
      refine ⟨q', c :: ids', ?_, by simpa using hr', ?_, hc, hi, ?_⟩
      · simp only [List.length_cons, List.cons_append, List.head?_cons,
          Que.dequeOfLoop, follow_some, Res.ok_bind, heq, hnext, hq',
          List.map_cons, List.find?_cons]
        rfl
      · simp [heq, hids]
      · intro hall
        exact hsame fun z hz => hall z (List.mem_cons_of_mem _ hz)

/-- `deque(a)` takes the first entry that is equal to `a`. -/
theorem Rep.dequeOf (hr : Rep q h t ids) (eq : T → T → Bool) (y : T) : ∃ q' ids',
    q.dequeOf eq y = .ok (((ids.map q.content).find? (eq · y)).getD q.invalid, q') ∧
    Rep q' h t ids' ∧ ids'.map q.content = (ids.map q.content).eraseP (eq · y) ∧
    q'.content = q.content ∧ q'.invalid = q.invalid ∧
    ((∀ z ∈ ids.map q.content, eq z y = false) → q' = q) := by
  obtain ⟨q', ids', hq', hrest⟩ := Rep.dequeOfLoop eq y [] hr
  refine ⟨q', ids', ?_, hrest⟩
  have hnext : q.next h = (ids ++ [t]).head? := by
    have hchain := hr.chain
    cases ids with
    | nil => exact (List.isChain_cons_cons.mp hchain).1.1
    | cons d rest => exact (List.isChain_cons_cons.mp hchain).1.1
  unfold Que.dequeOf
  simp only [hr.head, follow_some, Res.ok_bind, hnext, hr.num]
  exact hq'

/-- The queue the constructor makes. -/
theorem init_eq (invalid : T) (prev : Ptr N → Option (Ptr N)) (content : Ptr N → T) :
    Que.init invalid prev content = .ok
      { invalid := invalid, head := some 0, tail := some 1, num := 0
        next := Function.update (Function.update (fun _ => none) 0 (some 1)) 1 none
        prev := Function.update (Function.update prev 1 (some 0)) 0 none
        content := content
        isFree := Function.update (Function.update (fun _ => true) 0 false) 1 false } := by
  have h₀ : (List.finRange (N + 2)).find? (fun _ => true) = some 0 := by
    simp [List.finRange_succ]
  have h₁ : (List.finRange (N + 2)).find? (Function.update (fun _ => true) 0 false) = some 1 := by
    simp [List.finRange_succ]
  unfold Que.init
  simp only [Que.get, h₀, h₁, follow_some, Res.ok_bind]
  rfl

/-- The constructor makes an empty list. -/
theorem init_rep (invalid : T) (prev : Ptr N → Option (Ptr N)) (content : Ptr N → T) :
    ∃ q, Que.init invalid prev content = .ok q ∧ Rep q 0 1 [] ∧ q.invalid = invalid := by
  refine ⟨_, init_eq invalid prev content, ⟨rfl, rfl, rfl, ?_, ?_, ?_⟩, rfl⟩
  · refine List.isChain_cons_cons.mpr ⟨⟨?_, ?_⟩, List.isChain_singleton _⟩
    · simp [links]
    · simp [links]
  · simp
  · intro i
    by_cases h1 : i = 1
    · simp [h1]
    · by_cases h0 : i = 0
      · simp [h0]
      · simp [h0, h1]

/-! ## Sequences of calls -/

/-- One call keeps the representation and returns what the list gives. -/
theorem Rep.step (hr : Rep q h t ids) (eq : T → T → Bool) (o : Op T)
    (hroom : ∀ x, o = .enque x → (ids.map q.content).length < N) :
    ∃ q' ids', q.step eq o = .ok ((listStep eq q.invalid (ids.map q.content) o).1, q') ∧
    Rep q' h t ids' ∧
      ids'.map q'.content = (listStep eq q.invalid (ids.map q.content) o).2 ∧
      q'.invalid = q.invalid := by
  cases o with
  | enque x =>
    have hlt := hroom x rfl
    rw [List.length_map] at hlt
    obtain ⟨i, q', hq', hr', hx, hsame, hinv⟩ := hr.enque (x := x) hlt
    refine ⟨q', i :: ids, ?_, hr', ?_, hinv⟩
    · simp [Que.step, hq', listStep]
    · simpa [listStep, hx] using hsame
  | deque =>
    rcases List.eq_nil_or_concat ids with rfl | ⟨pre, a, rfl⟩
    · refine ⟨q, [], ?_, hr, rfl, rfl⟩
      have hnum : q.num = 0 := hr.num
      simp [Que.step, Que.deque, hnum, listStep]
    · rw [List.concat_eq_append] at hr ⊢
      obtain ⟨q', hq', hr', hc, hinv⟩ := hr.deque
      refine ⟨q', pre, ?_, hr', ?_, hinv⟩
      · simp [Que.step, hq', listStep]
      · simp [listStep, hc]
  | dequeOf a =>
    obtain ⟨q', ids', hq', hr', hids, hc, hinv, -⟩ := hr.dequeOf eq a
    refine ⟨q', ids', ?_, hr', ?_, hinv⟩
    · simp [Que.step, hq', listStep]
    · rw [hc, hids]
      rfl

/-- A sequence of calls. -/
theorem Rep.run : ∀ {os : List (Op T)} {q : Que T N} {ids : List (Ptr N)}, Rep q h t ids →
    Room N eq q.invalid (ids.map q.content) os → ∃ q' ids',
      q.run eq os = .ok ((listRun eq q.invalid (ids.map q.content) os).1, q') ∧ Rep q' h t ids' ∧
      ids'.map q'.content = (listRun eq q.invalid (ids.map q.content) os).2
  | [], q, ids, hr, _ => ⟨q, ids, rfl, hr, rfl⟩
  | o :: os, q, ids, hr, hroom => by
    obtain ⟨q₁, ids₁, hq₁, hr₁, hids₁, hinv₁⟩ := hr.step eq o hroom.1
    have hroom₁ : Room N eq q₁.invalid (ids₁.map q₁.content) os := by
      rw [hinv₁, hids₁]
      exact hroom.2
    obtain ⟨q₂, ids₂, hq₂, hr₂, hids₂⟩ := Rep.run hr₁ hroom₁
    rw [hinv₁, hids₁] at hq₂ hids₂
    refine ⟨q₂, ids₂, ?_, hr₂, hids₂⟩
    simp [Que.run, hq₁, hq₂, listRun]

/-- A represented queue holds its list. -/
theorem Rep.holds (hr : Rep q h t ids) : Holds q (ids.map q.content) := by
  constructor
  · rw [List.length_map]
    exact hr.num
  · refine ⟨h, t, ids, hr.head, hr.tail, rfl, hr.chain.follows_next, ?_, ?_⟩
    · have hchain := hr.chain
      rw [← List.cons_append] at hchain
      have hprev := hchain.follows_prev
      rw [List.reverse_cons] at hprev
      exact hprev
    · intro i
      rw [hr.isFree i, List.mem_cons, List.mem_append, List.mem_singleton]
      tauto
  · intro hl
    have hnum : q.num = 0 := by
      rw [hr.num, List.map_eq_nil_iff.mp hl]
      rfl
    simp [Que.deque, hnum]
  · intro eq a hall
    obtain ⟨q', ids', hq', -, -, -, -, hsame⟩ := hr.dequeOf eq a
    have hnone : (ids.map q.content).find? (eq · a) = none := by
      rw [List.find?_eq_none]
      intro z hz
      simp [hall z hz]
    rw [hsame hall, hnone] at hq'
    exact hq'

/-- **`Que` refines a list**: every sequence of calls in which `enque` is only called while fewer
than `N` elements are held returns what the list returns, and leaves a queue that holds the list. -/
theorem que_refines (eq : T → T → Bool) (invalid : T) (prev : Ptr N → Option (Ptr N))
    (content : Ptr N → T) (os : List (Op T)) (hroom : Room N eq invalid [] os) :
    ∃ q₀ q, Que.init invalid prev content = .ok q₀ ∧
      q₀.run eq os = .ok ((listRun eq invalid [] os).1, q) ∧
      Holds q (listRun eq invalid [] os).2 := by
  obtain ⟨q₀, hq₀, hr₀, rfl⟩ := init_rep invalid prev content
  obtain ⟨q, ids, hq, hr, hids⟩ := hr₀.run hroom
  refine ⟨q₀, q, hq₀, hq, ?_⟩
  rw [List.map_nil] at hids
  rw [← hids]
  exact hr.holds

/-- A queue for two elements that is filled, searched and filled again. -/
def fillTwice : List (Op Nat) :=
  [.enque 7, .enque 8, .dequeOf 7, .enque 9, .dequeOf 5, .deque, .deque, .deque]

theorem que_refines_fillTwice : listRun (· == ·) 0 [] fillTwice =
      ([none, none, some 7, none, some 0, some 8, some 9, some 0], []) ∧
    ∃ q₀ q : Que Nat 2, Que.init 0 (fun _ => none) (fun _ => 0) = .ok q₀ ∧
      q₀.run (· == ·) fillTwice =
        .ok ([none, none, some 7, none, some 0, some 8, some 9, some 0], q) ∧
      Holds q [] := by
  refine ⟨by decide, que_refines (· == ·) 0 _ _ fillTwice ?_⟩
  simp [Room, fillTwice, listStep]

end OwnOS.Que
