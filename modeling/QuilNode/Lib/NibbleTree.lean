import QuilNode.Lib.PrefixCode

/-!
# Nibble trees with sums

A sparse radix tree over keys read as sequences of bits, four to a level.  A leaf stands at the
first level where no other key shares its path.

Insertion replaces or adds one key (`mem_entries_insert`) and keeps every leaf on its own path
(`Placed`).  A sum over the subtree at a bit path is the sum over the entries whose keys have the
path (`subtreeSum_eq`).
-/

open List Function PrefixCode

inductive NibbleTree (κ β : Type*) where
  | null
  | leaf (key : κ) (value : β)
  | node (children : Fin 16 → NibbleTree κ β)

namespace NibbleTree

variable {κ β : Type*}

/-- The number four bits spell. -/
def nibble4 (b₀ b₁ b₂ b₃ : Bool) : Fin 16 :=
  ⟨8 * b₀.toNat + 4 * b₁.toNat + 2 * b₂.toNat + b₃.toNat, by
    have h₀ := b₀.toNat_le
    have h₁ := b₁.toNat_le
    have h₂ := b₂.toNat_le
    have h₃ := b₃.toNat_le
    omega⟩

/-- The nibble of a key at a level. -/
def nibbleAt (bits : Nat → Bool) (level : Nat) : Fin 16 :=
  nibble4 (bits (4 * level)) (bits (4 * level + 1)) (bits (4 * level + 2)) (bits (4 * level + 3))

/-- The leaves, in the order of their paths. -/
def entries : NibbleTree κ β → List (κ × β)
  | null => []
  | leaf key value => [(key, value)]
  | node children => (List.finRange 16).flatMap fun n => entries (children n)

variable {children : Fin 16 → NibbleTree κ β}

theorem mem_entries_node {e : κ × β} :
    e ∈ entries (node children) ↔ ∃ n, e ∈ entries (children n) := by
  simp [entries]

section Keys

variable (bit : κ → Nat → Bool)

/-- Every leaf below a node of this level is on the path of its key. -/
def Placed : Nat → NibbleTree κ β → Prop
  | _, null => True
  | _, leaf _ _ => True
  | level, node children =>
    ∀ n, (∀ e ∈ entries (children n), nibbleAt (bit e.1) level = n) ∧
      Placed (level + 1) (children n)

/-- The children of a node made of one leaf. -/
def childrenOf (key : κ) (value : β) (level : Nat) : Fin 16 → NibbleTree κ β :=
  fun n => if n = nibbleAt (bit key) level then leaf key value else null

/-- Put a value at a key; `fuel` levels are left below `level`. -/
def insert [DecidableEq κ] (key : κ) (value : β) : Nat → Nat → NibbleTree κ β → NibbleTree κ β
  | 0, _, _ => leaf key value
  | _ + 1, _, null => leaf key value
  | fuel + 1, level, leaf other stored =>
    if other = key then leaf key value
    else
      let below := childrenOf bit other stored level
      let n := nibbleAt (bit key) level
      node (Function.update below n (insert key value fuel (level + 1) (below n)))
  | fuel + 1, level, node children =>
    let n := nibbleAt (bit key) level
    node (Function.update children n (insert key value fuel (level + 1) (children n)))

variable {bit} {level : Nat} {t : NibbleTree κ β}

theorem nodup_entries (h : Placed bit level t) : ((entries t).map Prod.fst).Nodup := by
  induction t generalizing level with
  | null | leaf => simp [entries]
  | node children ih =>
    have hflat : (entries (node children)).map Prod.fst =
        (finRange 16).flatMap fun n => (entries (children n)).map Prod.fst := by
      simp [entries, map_flatMap]
    rw [hflat, nodup_flatMap]
    refine ⟨fun n _ => ih n (h n).2, ?_⟩
    refine (nodup_finRange 16).imp ?_
    intro n n' hne key hkey hkey'
    obtain ⟨e, he, rfl⟩ := mem_map.mp hkey
    obtain ⟨e', he', hsame⟩ := mem_map.mp hkey'
    apply hne
    rw [← (h n).1 e he, ← hsame, (h n').1 e' he']

/-- `t'` is `t` with one entry put in place of its key's. -/
structure Inserted (bit : κ → Nat → Bool) (key : κ) (value : β) (level : Nat)
    (t t' : NibbleTree κ β) : Prop where
  placed : Placed bit level t'
  mem_iff : ∀ e, e ∈ entries t' ↔ e = (key, value) ∨ e.1 ≠ key ∧ e ∈ entries t

/-- Putting an entry into the child on its path puts it into the node. -/
theorem Inserted.node {key : κ} {value : β} {level : Nat} {children : Fin 16 → NibbleTree κ β}
    {child : NibbleTree κ β} (hplaced : Placed bit level (node children))
    (h : Inserted bit key value (level + 1) (children (nibbleAt (bit key) level)) child) :
    Inserted bit key value level (node children)
      (node (update children (nibbleAt (bit key) level) child)) := by
  constructor
  · intro n
    by_cases hn : n = nibbleAt (bit key) level
    · subst hn
      rw [update_self]
      refine ⟨fun e he => ?_, h.placed⟩
      rcases (h.mem_iff e).mp he with rfl | ⟨-, he⟩
      · rfl
      · exact (hplaced _).1 e he
    · rw [update_of_ne hn]
      exact hplaced n
  · intro e
    rw [mem_entries_node]
    constructor
    · rintro ⟨n, he⟩
      by_cases hn : n = nibbleAt (bit key) level
      · subst hn
        rw [update_self] at he
        rcases (h.mem_iff e).mp he with rfl | ⟨hne, he⟩
        · exact .inl rfl
        · exact .inr ⟨hne, mem_entries_node.mpr ⟨_, he⟩⟩
      · rw [update_of_ne hn] at he
        refine .inr ⟨?_, mem_entries_node.mpr ⟨n, he⟩⟩
        rintro rfl
        exact hn ((hplaced n).1 e he).symm
    · rintro (rfl | ⟨hne, he⟩)
      · refine ⟨nibbleAt (bit key) level, ?_⟩
        rw [update_self]
        exact (h.mem_iff _).mpr (.inl rfl)
      · obtain ⟨n, he⟩ := mem_entries_node.mp he
        refine ⟨n, ?_⟩
        by_cases hn : n = nibbleAt (bit key) level
        · subst hn
          rw [update_self]
          exact (h.mem_iff e).mpr (.inr ⟨hne, he⟩)
        · rwa [update_of_ne hn]

variable {key : κ}

theorem mem_entries_childrenOf {value : β} {e : κ × β} :
    e ∈ entries (.node (childrenOf bit key value level)) ↔ e = (key, value) := by
  rw [mem_entries_node]
  unfold childrenOf
  constructor
  · rintro ⟨n, he⟩
    split at he
    · exact mem_singleton.mp he
    · cases he
  · rintro rfl
    refine ⟨nibbleAt (bit key) level, ?_⟩
    rw [if_pos rfl]
    exact mem_singleton_self _

theorem placed_childrenOf (key : κ) (value : β) (level : Nat) :
    Placed bit level (.node (childrenOf bit key value level)) := by
  intro n
  unfold childrenOf
  by_cases hn : n = nibbleAt (bit key) level
  · rw [if_pos hn]
    refine ⟨fun e he => ?_, trivial⟩
    rw [mem_singleton.mp he, hn]
  · rw [if_neg hn]
    exact ⟨fun e he => absurd he not_mem_nil, trivial⟩

/-- **Insertion.**  Where every key agrees with the new one so far and the levels left tell keys
apart, the new entry replaces the one of its key and every other stays. -/
theorem inserted_insert [DecidableEq κ] {depth : Nat}
    (hsep : ∀ a b : κ, (∀ i < depth, nibbleAt (bit a) i = nibbleAt (bit b) i) → a = b)
    {key : κ} {value : β} {fuel level : Nat} {t : NibbleTree κ β} (hlevel : level + fuel = depth)
    (hplaced : Placed bit level t)
    (hagree : ∀ e ∈ entries t, ∀ i < level, nibbleAt (bit e.1) i = nibbleAt (bit key) i) :
    Inserted bit key value level t (insert bit key value fuel level t) := by
  induction fuel generalizing level t with
  | zero =>
    -- no level is left: whatever is here has the same key
    have hkeys : ∀ e ∈ entries t, e.1 = key := fun e he =>
      hsep _ _ fun i hi => hagree e he i (by omega)
    refine ⟨trivial, fun e => ?_⟩
    constructor
    · exact fun he => .inl (mem_singleton.mp he)
    · rintro (rfl | ⟨hne, he⟩)
      · exact mem_singleton_self _
      · exact absurd (hkeys e he) hne
  | succ fuel ih =>
    have hchild : ∀ {children : Fin 16 → NibbleTree κ β}, Placed bit level (.node children) →
        (∀ e ∈ entries (.node children), ∀ i < level, nibbleAt (bit e.1) i = nibbleAt (bit key) i) →
        Inserted bit key value level (.node children) (.node (update children
          (nibbleAt (bit key) level) (insert bit key value fuel (level + 1)
            (children (nibbleAt (bit key) level))))) := by
      intro children hplaced hagree
      refine .node hplaced (ih (by omega) (hplaced _).2 fun e he i hi => ?_)
      rcases Nat.lt_succ_iff_lt_or_eq.mp hi with hi | rfl
      · exact hagree e (mem_entries_node.mpr ⟨_, he⟩) i hi
      · exact (hplaced _).1 e he
    cases t with
    | null => exact ⟨trivial, fun e => by simp [insert, entries]⟩
    | node => exact hchild hplaced hagree
    | leaf other stored =>
      unfold insert
      by_cases hsame : other = key
      · rw [if_pos hsame]
        refine ⟨trivial, fun e => ?_⟩
        simp only [entries, mem_singleton]
        constructor
        · exact .inl
        · rintro (h | ⟨hne, rfl⟩)
          · exact h
          · exact absurd hsame hne
      · rw [if_neg hsame]
        -- the leaf moves one level down, then the new key is put beside or below it
        have hmoved := hchild (placed_childrenOf other stored level) fun e he =>
          hagree e (mem_singleton.mpr (mem_entries_childrenOf.mp he))
        refine ⟨hmoved.placed, fun e => ?_⟩
        rw [hmoved.mem_iff e, mem_entries_childrenOf, entries, mem_singleton]

/-- The value at a key. -/
def lookup [DecidableEq κ] (t : NibbleTree κ β) (key : κ) : Option β :=
  ((entries t).find? fun e => e.1 = key).map Prod.snd

theorem lookup_iff [DecidableEq κ] (h : Placed bit level t) {value : β} :
    t.lookup key = some value ↔ (key, value) ∈ entries t := by
  have hnodup := nodup_entries h
  unfold lookup
  constructor
  · intro hfind
    obtain ⟨_, he, rfl⟩ := Option.map_eq_some_iff.mp hfind
    have hkey := find?_some he
    rw [decide_eq_true_eq] at hkey
    exact hkey ▸ mem_of_find?_eq_some he
  · intro hmem
    cases hfind : (entries t).find? fun e => e.1 = key with
    | none =>
      have hnot := find?_eq_none.mp hfind _ hmem
      simp at hnot
    | some =>
      have hkey := find?_some hfind
      rw [decide_eq_true_eq] at hkey
      have hsame := inj_on_of_nodup_map hnodup (mem_of_find?_eq_some hfind) hmem hkey
      rw [hsame]
      rfl

theorem lookup_insert [DecidableEq κ] {depth : Nat}
    (hsep : ∀ a b : κ, (∀ i < depth, nibbleAt (bit a) i = nibbleAt (bit b) i) → a = b)
    (hplaced : Placed bit 0 t) (key other : κ) (value : β) :
    (insert bit key value depth 0 t).lookup other =
      if other = key then some value else t.lookup other := by
  have hinserted := @inserted_insert _ _ bit _ depth hsep key value depth 0 t (Nat.zero_add depth) hplaced
    (fun _ _ i hi => absurd hi (Nat.not_lt_zero i))
  apply Option.ext
  intro v
  rw [lookup_iff hinserted.placed, hinserted.mem_iff]
  by_cases hother : other = key
  · subst hother
    simp [eq_comm]
  · rw [if_neg hother, lookup_iff hplaced]
    simp [hother]

/-- The key has the bits of the path. -/
def Under (bit : κ → Nat → Bool) (path : List Bool) (key : κ) : Bool :=
  path.zipIdx.all fun x => bit key x.2 == x.1

/-- The number a list of bits spells, most significant first. -/
def bitsToNibble (bits : List Bool) : Nat := bits.foldl (fun n b => 2 * n + b.toNat) 0

/-- The children a partial nibble of one to three bits leaves open. -/
def openChildren (bits : List Bool) : List (Fin 16) :=
  let width := 16 >>> bits.length
  let start := bitsToNibble bits <<< (4 - bits.length)
  (List.finRange 16).filter fun n => start ≤ n.val ∧ n.val < start + width

/-- Sum the leaves under a bit path: down its full nibbles, then over the children its last bits
leave open.  `rest` is what is left of the path. -/
def subtreeSum (bit : κ → Nat → Bool) (total : NibbleTree κ β → Nat) (combine : List Nat → Nat)
    (path : List Bool) : List Bool → NibbleTree κ β → Nat
  | _, null => 0
  | _, leaf key value => if Under bit path key then total (leaf key value) else 0
  | b₀ :: b₁ :: b₂ :: b₃ :: rest, node children =>
    subtreeSum bit total combine path rest (children (nibble4 b₀ b₁ b₂ b₃))
  | [], node children => total (node children)
  | rest, node children => combine ((openChildren rest).map fun n => total (children n))

/-- A sum of a list of entries that `total` and `combine` compute over trees. -/
structure Sums (total : NibbleTree κ β → Nat) (combine : List Nat → Nat)
    (sum : List (κ × β) → Nat) : Prop where
  nil : sum [] = 0
  tree : ∀ t, total t = sum (entries t)
  children : ∀ (ns : List (Fin 16)) (children : Fin 16 → NibbleTree κ β),
    combine (ns.map fun n => total (children n)) = sum (ns.flatMap fun n => entries (children n))

theorem under_iff {path : List Bool} : Under bit path key = true ↔ Begins (bit key) path :=
  all_zipIdx_iff

variable {rest : List Bool}

theorem nibble4_inj {a0 a1 a2 a3 b0 b1 b2 b3 : Bool}
    (h : nibble4 a0 a1 a2 a3 = nibble4 b0 b1 b2 b3) : a0 = b0 ∧ a1 = b1 ∧ a2 = b2 ∧ a3 = b3 := by
  revert a0 a1 a2 a3 b0 b1 b2 b3
  decide

theorem isPrefix_iff_nibble4 {b0 b1 b2 b3 c0 c1 c2 c3 : Bool} :
    [b0, b1, b2, b3] <+: [c0, c1, c2, c3] ↔ nibble4 c0 c1 c2 c3 = nibble4 b0 b1 b2 b3 := by
  revert b0 b1 b2 b3 c0 c1 c2 c3
  decide

/-- A child is open where the first bits of its nibble are the given ones. -/
theorem mem_openChildren (h : 0 < rest.length) (h' : rest.length < 4) (c0 c1 c2 c3 : Bool) :
    nibble4 c0 c1 c2 c3 ∈ openChildren rest ↔ rest <+: [c0, c1, c2, c3] := by
  match rest with
  | [b0] => revert b0 c0 c1 c2 c3; decide
  | [b0, b1] => revert b0 b1 c0 c1 c2 c3; decide
  | [b0, b1, b2] => revert b0 b1 b2 c0 c1 c2 c3; decide
  | [] => cases h
  | _ :: _ :: _ :: _ :: _ => simp at h'; omega

theorem flatMap_filter_of_nil {α γ : Type*} {p : α → Bool} {f : α → List γ} {xs : List α}
    (h : ∀ x ∈ xs, p x = false → f x = []) : xs.flatMap f = (xs.filter p).flatMap f := by
  induction xs with
  | nil => rfl
  | cons x xs ih =>
    rw [flatMap_cons, ih fun y hy => h y (mem_cons_of_mem _ hy)]
    cases hp : p x with
    | true => rw [filter_cons_of_pos hp, flatMap_cons]
    | false =>
      rw [filter_cons_of_neg (by simp [hp]), h x mem_cons_self hp, nil_append]

/-- The four bits of a key at a level. -/
def chunkAt (bits : Nat → Bool) (level : Nat) : List Bool :=
  [bits (4 * level), bits (4 * level + 1), bits (4 * level + 2), bits (4 * level + 3)]

section Streams

variable {s : Nat → Bool} {done : List Bool} (hlevel : done.length = 4 * level) (hdone : Begins s done)
include hlevel hdone

/-- Where at most one nibble is left of the path, it is compared with the key's. -/
theorem begins_chunk (hrest : rest.length ≤ 4) :
    Begins s (done ++ rest) ↔ rest <+: chunkAt s level := by
  rw [begins_append, and_iff_right hdone, hlevel, prefix_iff_getElem]
  have hchunk : ∀ j, ∀ h : j < (chunkAt s level).length, (chunkAt s level)[j] = s (4 * level + j) := by
    intro j hj
    match j, hj with
    | 0, _ | 1, _ | 2, _ | 3, _ => rfl
  constructor
  · intro h
    exact ⟨hrest, fun j hj => by rw [hchunk, h j hj]⟩
  · rintro ⟨_, h⟩ j hj
    rw [h j hj, hchunk]

/-- The nibble a key has at a level. -/
theorem begins_nibble {b0 b1 b2 b3 : Bool} :
    Begins s (done ++ [b0, b1, b2, b3]) ↔ nibbleAt s level = nibble4 b0 b1 b2 b3 :=
  (begins_chunk hlevel hdone le_rfl).trans isPrefix_iff_nibble4

/-- The last bits of a path leave some nibbles open. -/
theorem begins_open (hrest : 0 < rest.length) (hrest' : rest.length < 4) :
    Begins s (done ++ rest) ↔ nibbleAt s level ∈ openChildren rest :=
  (begins_chunk hlevel hdone hrest'.le).trans (mem_openChildren hrest hrest' _ _ _ _).symm

end Streams

variable {total : NibbleTree κ β → Nat} {combine : List Nat → Nat} {sum : List (κ × β) → Nat}

/-- The entries of a node under a path, child by child. -/
theorem filter_entries_node {path : List Bool} {ns : List (Fin 16)}
    (hns : (finRange 16).filter (fun n => decide (n ∈ ns)) = ns)
    (h : ∀ n, ∀ e ∈ entries (children n), Under bit path e.1 = true → n ∈ ns) :
    (entries (node children)).filter (fun e => Under bit path e.1) =
      ns.flatMap fun n => (entries (children n)).filter fun e => Under bit path e.1 := by
  rw [entries, filter_flatMap]
  conv_rhs => rw [← hns]
  refine flatMap_filter_of_nil fun n _ hn => ?_
  rw [filter_eq_nil_iff]
  exact fun e he hunder => of_decide_eq_false hn (h n e he hunder)

theorem filter_finRange_eq (n : Fin 16) :
    (finRange 16).filter (fun m => decide (m ∈ [n])) = [n] := by
  revert n
  decide

/-- A path that leaves part of a nibble at a node. -/
theorem partial_eq (hsums : Sums total combine sum) {done : List Bool} (hrest : 0 < rest.length)
    (hrest' : rest.length < 4) (hlevel : done.length = 4 * level)
    (hplaced : Placed bit level (node children))
    (hdone : ∀ e ∈ entries (node children), Under bit done e.1 = true) :
    combine ((openChildren rest).map fun n => total (children n)) =
      sum ((entries (node children)).filter fun e => Under bit (done ++ rest) e.1) := by
  have hopen : ∀ n, ∀ e ∈ entries (children n),
      (Under bit (done ++ rest) e.1 = true ↔ n ∈ openChildren rest) := by
    intro n e he
    have hbegins := under_iff.mp (hdone e (mem_entries_node.mpr ⟨n, he⟩))
    rw [under_iff, begins_open hlevel hbegins hrest hrest', (hplaced n).1 e he]
  have hfilter : (finRange 16).filter (fun n => decide (n ∈ openChildren rest)) =
      openChildren rest := by
    unfold openChildren
    apply filter_congr
    intro n _
    simp
  rw [hsums.children, filter_entries_node hfilter fun n e he => (hopen n e he).mp]
  congr 1
  apply flatMap_congr
  intro n hn
  exact (filter_eq_self.mpr fun e he => (hopen n e he).mpr hn).symm

/-- **Sums under a path.**  The sum over the subtree at a bit path is the sum over
the entries whose keys have it. -/
theorem subtreeSum_eq (hsums : Sums total combine sum) {rest : List Bool} {t : NibbleTree κ β}
    {done : List Bool} {level : Nat} (hlevel : done.length = 4 * level)
    (hplaced : Placed bit level t)
    (hdone : ∀ e ∈ entries t, Under bit done e.1 = true) :
    subtreeSum bit total combine (done ++ rest) rest t =
      sum ((entries t).filter fun e => Under bit (done ++ rest) e.1) := by
  induction t generalizing rest done level with
  | null =>
    unfold subtreeSum
    exact hsums.nil.symm
  | leaf =>
    unfold subtreeSum
    simp only [entries, filter_cons, filter_nil]
    split
    · exact hsums.tree _
    · exact hsums.nil.symm
  | node children ih =>
    match rest with
    | [] =>
      unfold subtreeSum
      rw [hsums.tree, append_nil, filter_eq_self.mpr hdone]
    | [b0] => exact partial_eq hsums (by simp) (by simp) hlevel hplaced hdone
    | [b0, b1] => exact partial_eq hsums (by simp) (by simp) hlevel hplaced hdone
    | [b0, b1, b2] => exact partial_eq hsums (by simp) (by simp) hlevel hplaced hdone
    | b0 :: b1 :: b2 :: b3 :: rest =>
      have hsplit : done ++ b0 :: b1 :: b2 :: b3 :: rest = (done ++ [b0, b1, b2, b3]) ++ rest := by
        simp
      -- a key of the node has the next four bits where it is in their child
      have hchild : ∀ n, ∀ e ∈ entries (children n),
          (Under bit (done ++ [b0, b1, b2, b3]) e.1 = true ↔ n = nibble4 b0 b1 b2 b3) := by
        intro n e he
        have hbegins := under_iff.mp (hdone e (mem_entries_node.mpr ⟨n, he⟩))
        rw [under_iff, begins_nibble hlevel hbegins, (hplaced n).1 e he]
      rw [hsplit, filter_entries_node (filter_finRange_eq (nibble4 b0 b1 b2 b3)), flatMap_singleton]
      · refine ih _ ?_ (hplaced _).2 fun e he => (hchild _ e he).mpr rfl
        simp
        omega
      · intro n e he hunder
        refine mem_singleton.mpr ((hchild n e he).mp (under_iff.mpr ?_))
        exact (begins_append.mp (under_iff.mp hunder)).1

theorem subtreeSum_root (hsums : Sums total combine sum) (hplaced : Placed bit 0 t)
    (path : List Bool) :
    subtreeSum bit total combine path path t =
      sum ((entries t).filter fun e => Under bit path e.1) :=
  @subtreeSum_eq _ _ _ _ _ _ hsums path t [] 0 rfl hplaced (fun _ _ => rfl)

end Keys

/-- The number of leaves. -/
def leafCount : NibbleTree κ β → Nat
  | null => 0
  | leaf _ _ => 1
  | node children => ((List.finRange 16).map fun n => leafCount (children n)).sum

/-- Add a list of numbers, stopping at a cap. -/
def cappedSum (cap : Nat) (xs : List Nat) : Nat := xs.foldl (fun acc x => min (acc + x) cap) 0

/-- The sizes of the leaves, added up to a cap. -/
def sizeSum (cap : Nat) (size : β → Nat) : NibbleTree κ β → Nat
  | null => 0
  | leaf _ value => size value
  | node children => cappedSum cap ((List.finRange 16).map fun n => sizeSum cap size (children n))

theorem leafCount_eq (t : NibbleTree κ β) : leafCount t = (entries t).length := by
  induction t with
  | null => rfl
  | leaf => rfl
  | node children ih =>
    rw [leafCount, entries, length_flatMap]
    exact congrArg sum (map_congr_left fun n _ => ih n)

theorem sums_leafCount : Sums (leafCount : NibbleTree κ β → Nat) sum length where
  nil := rfl
  tree := leafCount_eq
  children := fun ns children => by
    rw [length_flatMap]
    exact congrArg sum (map_congr_left fun n _ => leafCount_eq (children n))

theorem foldl_capped (cap a : Nat) (xs : List Nat) :
    xs.foldl (fun acc x => min (acc + min x cap) cap) (min a cap) = min (a + xs.sum) cap := by
  induction xs generalizing a with
  | nil => simp
  | cons x xs ih =>
    have hstep : min (min a cap + min x cap) cap = min (a + x) cap := by omega
    rw [foldl_cons, hstep, ih, sum_cons, Nat.add_assoc]

theorem cappedSum_map {α : Type*} (cap : Nat) (f : α → Nat) (xs : List α) :
    cappedSum cap (xs.map fun x => min (f x) cap) = min ((xs.map f).sum) cap := by
  have hfold := foldl_capped cap 0 (xs.map f)
  rw [Nat.zero_min, Nat.zero_add, foldl_map] at hfold
  rw [cappedSum, foldl_map, hfold]

theorem sum_map_flatMap {α γ : Type*} (f : γ → Nat) (g : α → List γ) (xs : List α) :
    ((xs.flatMap g).map f).sum = (xs.map fun x => ((g x).map f).sum).sum := by
  induction xs with
  | nil => rfl
  | cons x xs ih => simp [ih]

theorem sizeSum_eq {cap : Nat} {size : β → Nat} (hsize : ∀ v, size v ≤ cap) (t : NibbleTree κ β) :
    sizeSum cap size t = min (((entries t).map fun e => size e.2).sum) cap := by
  induction t with
  | null => simp [sizeSum, entries]
  | leaf key value => simp [sizeSum, entries, hsize value]
  | node children ih =>
    rw [sizeSum, map_congr_left fun n _ => ih n, cappedSum_map, entries, sum_map_flatMap]

theorem sums_sizeSum {cap : Nat} {size : β → Nat} (hsize : ∀ v, size v ≤ cap) :
    Sums (sizeSum cap size : NibbleTree κ β → Nat) (cappedSum cap)
      (fun es => min ((es.map fun e => size e.2).sum) cap) where
  nil := by simp
  tree := sizeSum_eq hsize
  children := fun ns children => by
    rw [map_congr_left fun n _ => sizeSum_eq hsize (children n), cappedSum_map, sum_map_flatMap]

end NibbleTree
