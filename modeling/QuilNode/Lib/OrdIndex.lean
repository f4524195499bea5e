import QuilNode.Lib.OrdMap

/-!
# Totals, indexes and bags over ordered maps

Three things that are kept beside an ordered map and follow its changes: the total of a quantity
over its entries; an index, under each key the ordered set of what has the key; a bag, how often
each value occurs.  An index and a bag are determined by what they stand for.
-/

namespace OrdMap

open List Nat Prod

variable {κ α : Type*} [LinearOrder κ]

section Totals

variable {M : Type*} [AddCommMonoid M]

/-- The sum of a quantity over the entries. -/
def total (g : κ → α → M) (m : OrdMap κ α) : M := (m.entries.map fun e => g e.1 e.2).sum

/-- The quantity at an entry that may be missing. -/
def share (g : κ → α → M) (k : κ) (o : Option α) : M := o.elim 0 (g k)

theorem total_erase (g : κ → α → M) (m : OrdMap κ α) (k : κ) :
    total g m = share g k (m.get? k) + total g (m.erase k) := by
  cases hget : m.get? k with
  | none =>
    have hsame : m.erase k = m := by
      apply ext_get?
      intro k'
      rw [get?_erase]
      split
      · rename_i h
        rw [← h, hget]
      · rfl
    rw [hsame]
    exact (zero_add _).symm
  | some v =>
    have hperm : m.entries.Perm ((k, v) :: (m.erase k).entries) := by
      rw [perm_ext_iff_of_nodup m.nodup_entries]
      · rintro ⟨k', v'⟩
        rw [mem_cons, mem_erase, Prod.mk.injEq, mem_entries_iff]
        constructor
        · intro h
          by_cases hk : k' = k
          · subst hk
            exact .inl ⟨rfl, Option.some.inj (h.symm.trans hget)⟩
          · exact .inr ⟨h, hk⟩
        · rintro (⟨rfl, rfl⟩ | ⟨h, _⟩)
          · exact hget
          · exact h
      · exact nodup_cons.mpr ⟨fun h => (mem_erase.mp h).2 rfl, (m.erase k).nodup_entries⟩
    exact (hperm.map _).sum_eq

/-- A change at one key moves the total by the difference there. -/
theorem total_set (g : κ → α → M) (m : OrdMap κ α) (k : κ) (o : Option α) :
    total g (m.set k o) + share g k (m.get? k) = total g m + share g k o := by
  have herase : (m.set k o).erase k = m.erase k := by
    apply ext_get?
    intro k'
    simp only [get?_erase, get?_set]
    split <;> rfl
  have hself : (m.set k o).get? k = o := by rw [get?_set, if_pos rfl]
  rw [total_erase g (m.set k o) k, total_erase g m k, herase, hself]
  rw [add_comm (share g k o), add_comm (share g k (m.get? k)), add_assoc, add_assoc,
    add_comm (share g k o)]

/-- A quantity at an entry is part of the total. -/
theorem share_le_total {g : κ → α → Nat} (m : OrdMap κ α) (k : κ) :
    share g k (m.get? k) ≤ total g m := by
  rw [total_erase g m k]
  exact le_add_right _ _

theorem total_filterMap {β : Type*} (f : κ → α → Option β) (g : κ → β → M) (m : OrdMap κ α) :
    total g (m.filterMap f) = total (fun k v => share g k (f k v)) m := by
  change ((m.entries.filterMap fun e => (f e.1 e.2).map fun v => (e.1, v)).map
    fun e => g e.1 e.2).sum = (m.entries.map fun e => share g e.1 (f e.1 e.2)).sum
  induction m.entries with
  | nil => rfl
  | cons e rest ih =>
    cases hf : f e.1 e.2 with
    | none => simpa [filterMap_cons, hf, share] using ih
    | some v => simpa [filterMap_cons, hf, share] using congrArg (g e.1 v + ·) ih

end Totals

/-- The values of the entries, in key order. -/
def values (m : OrdMap κ α) : List α := m.entries.map Prod.snd

theorem values_filterMap {β : Type*} (f : κ → α → Option β) (m : OrdMap κ α) :
    (m.filterMap f).values = m.entries.filterMap fun e => f e.1 e.2 := by
  change ((m.entries.filterMap fun e => (f e.1 e.2).map fun v => (e.1, v)).map snd) = _
  rw [map_filterMap]
  refine filterMap_congr fun e _ => ?_
  cases f e.1 e.2 <;> rfl

/-- The values are found again under the keys. -/
theorem filterMap_keys (m : OrdMap κ α) : (m.entries.map fst).filterMap m.get? = m.values := by
  rw [filterMap_map, values, ← filterMap_eq_map]
  refine filterMap_congr fun e he => ?_
  exact mem_entries_iff.mp he

/-- The last value is found under the last key. -/
theorem bind_getLast?_keys (m : OrdMap κ α) :
    (m.entries.map fst).getLast?.bind m.get? = m.values.getLast? := by
  rw [values, getLast?_map, getLast?_map]
  cases hlast : m.entries.getLast? with
  | none => rfl
  | some => exact mem_entries_iff.mp (mem_of_getLast? hlast)

/-- A lookup in a list that a new key was added to. -/
theorem lookup_concat {l : List (κ × α)} {k : κ} {v : α} (hfresh : lookup k l = none) (k' : κ) :
    lookup k' (l ++ [(k, v)]) = if k = k' then some v else lookup k' l := by
  induction l with
  | nil => rfl
  | cons e rest ih =>
    by_cases hek : e.1 = k
    · simp [lookup, hek] at hfresh
    have hrest : lookup k rest = none := by simpa [lookup, hek] using hfresh
    rw [cons_append, lookup, lookup, ih hrest]
    by_cases hek' : e.1 = k'
    · subst hek'
      simp [Ne.symm hek]
    · simp [hek']

/-- In a front of a sorted list the next key is new. -/
theorem lookup_front {front back : List (κ × α)} {e : κ × α}
    (hsorted : (front ++ e :: back).Pairwise fun a b => a.1 < b.1) : lookup e.1 front = none :=
  lookup_eq_none fun x hx =>
    ne_of_lt ((pairwise_append.mp hsorted).2.2 x hx e mem_cons_self)

end OrdMap

/-- A loop over a list keeps what each item, added to the front that is done, keeps. -/
theorem List.foldl_front {α σ : Type*} {f : σ → α → σ} {P : List α → σ → Prop} {l : List α} {s : σ}
    (h : P [] s) (hstep : ∀ front a back s, l = front ++ a :: back → P front s →
      P (front ++ [a]) (f s a)) : P l (l.foldl f s) := by
  have hfrom : ∀ back front s, l = front ++ back → P front s → P l (back.foldl f s) := by
    intro back
    induction back with
    | nil =>
      intro front s hl hP
      rw [append_nil] at hl
      exact hl ▸ hP
    | cons a back ih =>
      intro front s hl hP
      exact ih (front ++ [a]) (f s a) (by rw [hl]; simp) (hstep front a back s hl hP)
  exact hfrom l [] s rfl h

/-- A finite set, kept in order. -/
abbrev OrdSet (α : Type*) [LinearOrder α] := OrdMap α Unit

namespace OrdSet

variable {α : Type*} [LinearOrder α]

/-- Whether `a` is in the set. -/
def Has (s : OrdSet α) (a : α) : Prop := s.get? a = some ()

instance (s : OrdSet α) (a : α) : Decidable (Has s a) := inferInstanceAs (Decidable (_ = _))

/-- The elements in order. -/
def toList (s : OrdSet α) : List α := s.entries.map Prod.fst

variable {s : OrdSet α}

theorem mem_toList {a : α} : a ∈ toList s ↔ Has s a := by
  rw [toList, Has, ← OrdMap.mem_entries_iff, List.mem_map]
  constructor
  · rintro ⟨⟨_, ⟨⟩⟩, h, rfl⟩
    exact h
  · intro h
    exact ⟨(a, ()), h, rfl⟩

theorem ext {t : OrdSet α} (h : ∀ a, Has s a ↔ Has t a) : s = t := by
  apply OrdMap.ext_get?
  intro a
  apply Option.ext
  rintro ⟨⟩
  exact h a

theorem has_insert {a b : α} : Has (s.insert a ()) b ↔ a = b ∨ Has s b := by
  unfold Has
  by_cases h : a = b <;> simp [h]

theorem has_erase {a b : α} : Has (s.erase a) b ↔ a ≠ b ∧ Has s b := by
  unfold Has
  by_cases h : a = b <;> simp [h]

theorem not_has_empty (a : α) : ¬ Has (OrdMap.empty : OrdSet α) a := by
  simp [Has]

theorem entries_eq_nil : s.entries = [] ↔ ∀ a, ¬ Has s a := by
  rw [OrdMap.entries_eq_nil]
  refine forall_congr' fun a => ?_
  unfold Has
  cases s.get? a <;> simp

/-- The greatest element. -/
def last? (s : OrdSet α) : Option α := s.toList.getLast?

/-- A set of exactly the keys of a map lists them as the map does. -/
theorem toList_eq_keys {β : Type*} {m : OrdMap α β} (h : ∀ a, Has s a ↔ (m.get? a).isSome) :
    s.toList = m.entries.map Prod.fst := by
  have hkeys : s = m.filterMap fun _ _ => some () := by
    refine ext fun a => (h a).trans ?_
    unfold Has
    rw [OrdMap.get?_filterMap]
    cases m.get? a <;> simp
  rw [hkeys, toList]
  change ((m.entries.filterMap fun e => some (e.1, ())).map Prod.fst) = _
  rw [List.filterMap_eq_map', List.map_map]
  rfl

end OrdSet

/-- Under each key, the set of what is filed there; no entry for an empty set. -/
abbrev SetIndex (κ α : Type*) [LinearOrder α] := κ → Option (OrdSet α)

namespace SetIndex

variable {κ α : Type*} [DecidableEq κ] [LinearOrder α]

/-- File `a` under `k`. -/
def add (index : SetIndex κ α) (k : κ) (a : α) : SetIndex κ α :=
  Function.update index k (some (((index k).getD .empty).insert a ()))

/-- Take `a` from under `k`, and the key with the last element. -/
def remove (index : SetIndex κ α) (k : κ) (a : α) : SetIndex κ α :=
  match index k with
  | none => index
  | some s =>
    let s := s.erase a
    Function.update index k (if s.entries = [] then none else some s)

omit [DecidableEq κ] in
/-- The index files `a` under `k` exactly where `R k a`, and keeps no empty set. -/
def Files (index : SetIndex κ α) (R : κ → α → Prop) : Prop :=
  ∀ k, (∀ s, index k = some s → s.entries ≠ []) ∧ ∀ a, OrdSet.Has ((index k).getD .empty) a ↔ R k a

omit [DecidableEq κ] in
theorem files_empty : Files (fun _ => none : SetIndex κ α) fun _ _ => False :=
  fun _ => ⟨(fun _ h => nomatch h), fun a => iff_false_intro (OrdSet.not_has_empty a)⟩

variable {index : SetIndex κ α} {R : κ → α → Prop}

omit [DecidableEq κ] in
/-- What is filed determines the index. -/
theorem Files.unique {index' : SetIndex κ α} (h : Files index R) (h' : Files index' R) :
    index = index' := by
  funext k
  have hsame : (index k).getD .empty = (index' k).getD .empty :=
    OrdSet.ext fun a => ((h k).2 a).trans ((h' k).2 a).symm
  cases hi : index k with
  | none =>
    cases hi' : index' k with
    | none => rfl
    | some s =>
      rw [hi, hi'] at hsame
      exact absurd (congrArg OrdMap.entries hsame).symm ((h' k).1 s hi')
  | some s =>
    cases hi' : index' k with
    | none =>
      rw [hi, hi'] at hsame
      exact absurd (congrArg OrdMap.entries hsame) ((h k).1 s hi)
    | some =>
      rw [hi, hi'] at hsame
      exact congrArg some hsame

omit [DecidableEq κ] in
theorem Files.congr {R' : κ → α → Prop} (h : Files index R) (hR : ∀ k a, R k a ↔ R' k a) :
    Files index R' :=
  fun k => ⟨(h k).1, fun a => ((h k).2 a).trans (hR k a)⟩

theorem Files.add (h : Files index R) (k : κ) (a : α) :
    Files (index.add k a) fun k' a' => (k = k' ∧ a = a') ∨ R k' a' := by
  intro k'
  by_cases hk : k' = k
  · subst hk
    have hself : index.add k' a k' = some (((index k').getD .empty).insert a ()) :=
      Function.update_self ..
    rw [hself]
    refine ⟨fun s hs hnil => ?_, fun b => ?_⟩
    · cases hs
      exact OrdSet.entries_eq_nil.mp hnil a (OrdSet.has_insert.mpr (.inl rfl))
    · rw [Option.getD_some, OrdSet.has_insert, (h k').2 b]
      simp
  · have hother : index.add k a k' = index k' := Function.update_of_ne hk ..
    rw [hother]
    refine ⟨(h k').1, fun b => ((h k').2 b).trans ?_⟩
    simp [Ne.symm hk]

theorem Files.remove (h : Files index R) (k : κ) (a : α) :
    Files (index.remove k a) fun k' a' => ¬ (k = k' ∧ a = a') ∧ R k' a' := by
  intro k'
  cases hi : index k with
  | none =>
    have hnone : index.remove k a = index := by simp [SetIndex.remove, hi]
    rw [hnone]
    refine ⟨(h k').1, fun b => ((h k').2 b).trans ?_⟩
    refine ⟨fun hR => ⟨?_, hR⟩, fun hR => hR.2⟩
    rintro ⟨rfl, rfl⟩
    have hhas := ((h k).2 a).mpr hR
    rw [hi] at hhas
    exact OrdSet.not_has_empty a hhas
  | some s =>
    have hremove : index.remove k a = Function.update index k
        (if (s.erase a).entries = [] then none else some (s.erase a)) := by
      simp [SetIndex.remove, hi]
    rw [hremove]
    by_cases hk : k' = k
    · subst hk
      rw [Function.update_self]
      have hget : (if (s.erase a).entries = [] then none else some (s.erase a)).getD .empty =
          s.erase a := by
        split
        · rename_i hnil
          exact OrdMap.ext_get? fun b => by rw [OrdMap.entries_eq_nil.mp hnil b]; rfl
        · rfl
      refine ⟨fun t ht => ?_, fun b => ?_⟩
      · split at ht
        · cases ht
        · rename_i hne
          exact Option.some.inj ht ▸ hne
      · have hhas := (h k').2 b
        rw [hi, Option.getD_some] at hhas
        rw [hget, OrdSet.has_erase, hhas]
        simp
    · rw [Function.update_of_ne hk]
      refine ⟨(h k').1, fun b => ((h k').2 b).trans ?_⟩
      simp [Ne.symm hk]

theorem Files.addAll (h : Files index R) (ks : List κ) (a : α) :
    Files (ks.foldl (fun index k => index.add k a) index) fun k b => (a = b ∧ k ∈ ks) ∨ R k b := by
  induction ks generalizing index R with
  | nil => exact h.congr fun _ _ => by simp
  | cons k ks ih =>
    refine (ih (h.add k a)).congr fun k' b => ?_
    rw [List.mem_cons, eq_comm (a := k')]
    tauto

theorem Files.removeAll (h : Files index R) (ks : List κ) (a : α) :
    Files (ks.foldl (fun index k => index.remove k a) index)
      fun k b => ¬ (a = b ∧ k ∈ ks) ∧ R k b := by
  induction ks generalizing index R with
  | nil => exact h.congr fun _ _ => by simp
  | cons k ks ih =>
    refine (ih (h.remove k a)).congr fun k' b => ?_
    rw [List.mem_cons, eq_comm (a := k')]
    tauto

end SetIndex

/-- How often each value occurs; no entry for a value that does not. -/
abbrev Bag (κ : Type*) [LinearOrder κ] := OrdMap κ Nat

namespace Bag

variable {κ : Type*} [LinearOrder κ]

/-- One more `k`. -/
def note (bag : Bag κ) (k : κ) : Bag κ := bag.insert k ((bag.get? k).getD 0 + 1)

/-- One `k` fewer, and its entry with the last. -/
def forget (bag : Bag κ) (k : κ) : Bag κ :=
  match bag.get? k with
  | none => bag
  | some count => if count - 1 = 0 then bag.erase k else bag.insert k (count - 1)

/-- The bag holds each value as often as `f` says. -/
def Holds (bag : Bag κ) (f : κ → Nat) : Prop :=
  ∀ k, bag.get? k = if f k = 0 then none else some (f k)

theorem holds_empty : Holds (OrdMap.empty : Bag κ) fun _ => 0 := fun _ => rfl

variable {bag : Bag κ}

theorem Holds.unique {bag' : Bag κ} {f : κ → Nat} (h : Holds bag f) (h' : Holds bag' f) :
    bag = bag' :=
  OrdMap.ext_get? fun k => (h k).trans (h' k).symm

theorem Holds.note {f g : κ → Nat} (h : Holds bag f) (k : κ)
    (hg : ∀ k', g k' = f k' + if k = k' then 1 else 0) : Holds (bag.note k) g := by
  intro k'
  have hcount : (bag.get? k).getD 0 = f k := by
    rw [h k]
    split <;> simp_all
  rw [Bag.note, OrdMap.get?_insert, hcount, hg k']
  by_cases hk : k = k'
  · subst hk
    simp
  · simpa [hk] using h k'

theorem Holds.forget {f g : κ → Nat} (h : Holds bag f) (k : κ)
    (hg : ∀ k', f k' = g k' + if k = k' then 1 else 0) : Holds (bag.forget k) g := by
  intro k'
  have hpos : f k = g k + 1 := by simpa using hg k
  have hget : bag.get? k = some (g k + 1) := by rw [h k, hpos, if_neg (Nat.succ_ne_zero _)]
  have hforget : bag.forget k = if g k = 0 then bag.erase k else bag.insert k (g k) := by
    simp [Bag.forget, hget]
  rw [hforget]
  by_cases hk : k = k'
  · split <;> simp_all
  have hsame : f k' = g k' := by simpa [hk] using hg k'
  rw [← hsame, ← h k']
  split <;> simp [hk]

/-- One value for another, each of which may be missing. -/
def swap (bag : Bag κ) (old new : Option κ) : Bag κ :=
  let bag := match old with
    | some k => bag.forget k
    | none => bag
  match new with
  | some k => bag.note k
  | none => bag

/-- A bag that counts the entries of a map by size follows a change of an entry. -/
theorem Holds.swap {ι α : Type*} [LinearOrder ι] {m : OrdMap ι α} {size : α → κ} {rest : κ → Nat}
    (h : bag.Holds fun n => m.total (fun _ v => if size v = n then 1 else 0) + rest n) (i : ι)
    (new : Option α) : (bag.swap ((m.get? i).map size) (new.map size)).Holds fun n =>
      (m.set i new).total (fun _ v => if size v = n then 1 else 0) + rest n := by
  have herased : Holds (match (m.get? i).map size with
      | some k => bag.forget k
      | none => bag) fun n =>
      (m.erase i).total (fun _ v => if size v = n then 1 else 0) + rest n := by
    have htotal := fun n => OrdMap.total_erase (fun _ v => if size v = n then 1 else 0) m i
    cases hget : m.get? i with
    | none =>
      refine fun n => (h n).trans ?_
      have hn := htotal n
      rw [hget, OrdMap.share, Option.elim_none, zero_add] at hn
      simp only [hn]
    | some =>
      refine h.forget _ fun n => ?_
      rw [htotal n, hget, OrdMap.share, Option.elim_some]
      omega
  have herase : (m.set i new).erase i = m.erase i := by
    apply OrdMap.ext_get?
    intro k
    simp only [OrdMap.get?_erase, OrdMap.get?_set]
    split <;> rfl
  have htotal := fun n =>
    OrdMap.total_erase (fun _ v => if size v = n then 1 else 0) (m.set i new) i
  rw [herase] at htotal
  simp only [OrdMap.get?_set, if_true] at htotal
  cases new with
  | none =>
    refine fun n => (herased n).trans ?_
    have hn := htotal n
    rw [OrdMap.share, Option.elim_none, zero_add] at hn
    simp only [hn]
  | some =>
    refine herased.note _ fun n => ?_
    rw [htotal n, OrdMap.share, Option.elim_some]
    omega

/-- The greatest value of the bag. -/
def last? (bag : Bag κ) : Option κ := (bag.entries.map Prod.fst).getLast?

/-- `top` is the greatest number in the bag, zero where it is empty. -/
def Tops (top : Nat) (bag : Bag Nat) : Prop :=
  (∀ n, (bag.get? n).isSome → n ≤ top) ∧ (top = 0 ∨ (bag.get? top).isSome)

theorem tops_empty : Tops 0 OrdMap.empty := ⟨(fun _ h => nomatch h), .inl rfl⟩

theorem Tops.note {top : Nat} {bag : Bag Nat} (h : Tops top bag) (n : Nat) :
    Tops (max top n) (bag.note n) := by
  have hget : ∀ k, ((bag.note n).get? k).isSome ↔ n = k ∨ (bag.get? k).isSome := by
    intro k
    rw [Bag.note, OrdMap.get?_insert]
    by_cases hk : n = k <;> simp [hk]
  refine ⟨fun k hk => ?_, ?_⟩
  · rcases (hget k).mp hk with rfl | hk
    · exact le_max_right ..
    · exact le_trans (h.1 k hk) (le_max_left ..)
  · rw [hget]
    rcases le_total top n with hle | hle
    · exact .inr (.inl (max_eq_right hle).symm)
    have hmax : max top n = top := max_eq_left hle
    rw [hmax]
    exact h.2.imp_right .inr

theorem Tops.last {top : Nat} {bag : Bag Nat} (h : Tops top bag) : bag.last?.getD 0 = top := by
  unfold last?
  rw [List.getLast?_map]
  cases hlast : bag.entries.getLast? with
  | none =>
    have hnil : bag.entries = [] := List.getLast?_eq_none_iff.mp hlast
    rcases h.2 with rfl | hsome
    · rfl
    · rw [OrdMap.entries_eq_nil.mp hnil top] at hsome
      cases hsome
  | some e =>
    obtain ⟨_, hfront⟩ := List.getLast?_eq_some_iff.mp hlast
    have hmem : e ∈ bag.entries := List.mem_of_getLast? hlast
    have hle : e.1 ≤ top := h.1 e.1 (by rw [OrdMap.mem_entries_iff.mp hmem]; rfl)
    rcases h.2 with rfl | hsome
    · exact Nat.le_zero.mp hle
    obtain ⟨_, hcount⟩ := Option.isSome_iff_exists.mp hsome
    have htop := OrdMap.mem_entries_iff.mpr hcount
    rw [hfront] at htop
    rcases List.mem_append.mp htop with hin | hin
    · have hsorted := bag.sorted
      rw [hfront] at hsorted
      have hlt : top < e.1 :=
        (List.pairwise_append.mp hsorted).2.2 _ hin e (List.mem_singleton_self e)
      omega
    · exact (congrArg Prod.fst (List.mem_singleton.mp hin)).symm

end Bag
