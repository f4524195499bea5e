import Mathlib

/-!
# Computations that may fail

Inversion of a successful computation: a bind that succeeds went through both
of its halves, a loop that succeeds went through every iteration.  A view of
the loop's state that each iteration moves by a total function is moved by the
whole loop as the plain fold of that function.  Results collected by a loop
stand in the order of the inputs they come from.
-/

namespace Results

open List

universe u v

variable {ε : Type u} {α : Type v} {β γ : Type*}

theorem bind_ok {β : Type v} {x : Except ε α} {f : α → Except ε β} {b : β} :
    (x >>= f) = .ok b ↔ ∃ a, x = .ok a ∧ f a = .ok b := by
  cases x with
  | error | ok => simp [bind, Except.bind]

theorem pure_ok {a b : α} : (pure a : Except ε α) = .ok b ↔ a = b := by
  simp [pure, Except.pure]

theorem toOption_eq_some {x : Except ε α} {a : α} : x.toOption = some a ↔ x = .ok a := by
  cases x with
  | error | ok => simp [Except.toOption]

/-- A loop that collects results succeeds where every iteration does. -/
theorem mapM_ok {β : Type v} {f : β → Except ε α} {bs : List β} {as : List α} :
    bs.mapM f = .ok as ↔ List.Forall₂ (fun b a => f b = .ok a) bs as := by
  induction bs generalizing as with
  | nil => simp [pure, Except.pure, forall₂_nil_left_iff, eq_comm]
  | cons b bs ih =>
    rw [mapM_cons, bind_ok, forall₂_cons_left_iff]
    constructor
    · rintro ⟨a, ha, h⟩
      obtain ⟨as', has', h⟩ := bind_ok.mp h
      exact ⟨a, as', ha, ih.mp has', (pure_ok.mp h).symm⟩
    · rintro ⟨a, as', ha, has', rfl⟩
      exact ⟨a, ha, bind_ok.mpr ⟨as', ih.mpr has', rfl⟩⟩

/-- A loop that collects results, none of which fails. -/
theorem mapM_map_exists {β : Type v} {f : β → Except ε α} {g : γ → β} {R : γ → α → Prop} {cs : List γ}
    (h : ∀ c ∈ cs, ∃ a, f (g c) = .ok a ∧ R c a) :
    ∃ as, (cs.map g).mapM f = .ok as ∧ List.Forall₂ R cs as := by
  induction cs with
  | nil => exact ⟨[], rfl, .nil⟩
  | cons c cs ih =>
    obtain ⟨a, hf, hR⟩ := h c mem_cons_self
    obtain ⟨as, hfs, hRs⟩ := ih fun c' hc' => h c' (mem_cons_of_mem c hc')
    refine ⟨a :: as, ?_, .cons hR hRs⟩
    rw [map_cons, mapM_cons, bind_ok]
    exact ⟨a, hf, bind_ok.mpr ⟨as, hfs, rfl⟩⟩

/-- A loop of checks succeeds where each of them does. -/
theorem forM_ok {f : β → Except ε PUnit} {bs : List β} :
    bs.forM f = .ok ⟨⟩ ↔ ∀ b ∈ bs, f b = .ok ⟨⟩ := by
  induction bs with
  | nil => simp [pure, Except.pure]
  | cons b bs ih =>
    change (f b >>= fun _ => bs.forM f) = .ok ⟨⟩ ↔ _
    rw [bind_ok, forall_mem_cons]
    exact ⟨fun ⟨_, hb, h⟩ => ⟨hb, ih.mp h⟩, fun ⟨hb, h⟩ => ⟨⟨⟩, hb, ih.mpr h⟩⟩

variable {f : α → β → Except ε α}

/-- A loop none of whose iterations fails: `P` relates what is left of the list to the state. -/
theorem foldlM_exists {P : List β → α → Prop}
    (hstep : ∀ b bs a, P (b :: bs) a → ∃ a', f a b = .ok a' ∧ P bs a') {bs : List β} {a : α}
    (h : P bs a) : ∃ a', bs.foldlM f a = .ok a' ∧ P [] a' := by
  induction bs generalizing a with
  | nil => exact ⟨a, rfl, h⟩
  | cons b bs ih =>
    obtain ⟨a1, hf, ha1⟩ := hstep b bs a h
    obtain ⟨a', hrest, ha'⟩ := ih ha1
    refine ⟨a', ?_, ha'⟩
    rw [foldlM_cons, bind_ok]
    exact ⟨a1, hf, hrest⟩

/-- A loop none of whose iterations fails does for each item what later iterations keep. -/
theorem foldlM_each {I : α → Prop} {Done : β → α → Prop} {bs : List β}
    (hstep : ∀ b ∈ bs, ∀ a, I a → ∃ a', f a b = .ok a' ∧ I a' ∧ Done b a' ∧ ∀ c, Done c a → Done c a')
    {a : α} (h : I a) : ∃ a', bs.foldlM f a = .ok a' ∧ I a' ∧ ∀ b ∈ bs, Done b a' := by
  obtain ⟨a', hloop, hI, -, hdone⟩ := @foldlM_exists ε α β f
    (fun rest a => I a ∧ rest ⊆ bs ∧ ∀ b ∈ bs, b ∈ rest ∨ Done b a) (by
      rintro b rest a ⟨ha, hrest, hdone⟩
      obtain ⟨a', hf, ha', hb, hkept⟩ := hstep b (hrest mem_cons_self) a ha
      refine ⟨a', hf, ha', fun c hc => hrest (mem_cons_of_mem b hc), fun c hc => ?_⟩
      rcases hdone c hc with hmem | hc
      · rcases mem_cons.mp hmem with rfl | hmem
        · exact .inr hb
        · exact .inl hmem
      · exact .inr (hkept c hc)) bs a ⟨h, fun b hb => hb, fun b hb => .inl hb⟩
  exact ⟨a', hloop, hI, fun b hb => (hdone b hb).resolve_left not_mem_nil⟩

/-- A loop over the numbers below a bound keeps what each iteration brings one number
further. -/
theorem foldlM_finRange {N : Nat} {f : α → Fin N → Except ε α} {P : Nat → α → Prop}
    (hstep : ∀ (n : Fin N) (a : α), P n a → ∃ a', f a n = .ok a' ∧ P (n + 1) a') {a : α} (h : P 0 a) :
    ∃ a', (finRange N).foldlM f a = .ok a' ∧ P N a' := by
  -- what is left of the numbers tells how many are done
  obtain ⟨a', hloop, n, hn, hdone, ha'⟩ := @foldlM_exists ε α (Fin N) f
    (fun ns a => ∃ n ≤ N, ns = (finRange N).drop n ∧ P n a) (by
      rintro m ns a ⟨n, -, hns, ha⟩
      have hlt : n < N := by
        by_contra hge
        rw [drop_eq_nil_of_le (by simpa using hge)] at hns
        cases hns
      rw [drop_eq_getElem_cons (by simpa using hlt), getElem_finRange] at hns
      obtain ⟨rfl, rfl⟩ := cons.inj hns
      obtain ⟨a', hf, ha'⟩ := hstep ⟨n, hlt⟩ a ha
      exact ⟨a', hf, n + 1, hlt, rfl, ha'⟩) _ a ⟨0, Nat.zero_le N, rfl, h⟩
  have hall := drop_eq_nil_iff.mp hdone.symm
  rw [length_finRange] at hall
  exact ⟨a', hloop, le_antisymm hn hall ▸ ha'⟩

/-- What every iteration keeps, a successful loop keeps. -/
theorem foldlM_invariant {P : List β → α → Prop}
    (hstep : ∀ b bs a a', f a b = .ok a' → P (b :: bs) a → P bs a') {bs : List β} {a a' : α}
    (hloop : bs.foldlM f a = .ok a') (h : P bs a) : P [] a' := by
  induction bs generalizing a with
  | nil => exact Except.ok.inj hloop ▸ h
  | cons b bs ih =>
    rw [foldlM_cons, bind_ok] at hloop
    obtain ⟨a1, hf, hrest⟩ := hloop
    exact ih hrest (hstep b bs a a1 hf h)

/-- What each iteration of a successful loop does to a view of its state, the
loop does as a fold. -/
theorem foldlM_view {view : α → γ} {g : γ → β → γ}
    (hstep : ∀ a b a', f a b = .ok a' → view a' = g (view a) b) {bs : List β} {a a' : α}
    (h : bs.foldlM f a = .ok a') : view a' = bs.foldl g (view a) := by
  refine (@foldlM_invariant ε α β f (fun rest s => rest.foldl g (view s) = bs.foldl g (view a))
    (fun b rest s s' hf hs => ?_) bs a a' h rfl)
  rw [hstep s b s' hf]
  exact hs

/-- What no iteration of a successful loop changes, the loop does not change. -/
theorem foldlM_unchanged {view : α → γ}
    (hstep : ∀ a b a', f a b = .ok a' → view a' = view a) {bs : List β} {a a' : α}
    (h : bs.foldlM f a = .ok a') : view a' = view a := by
  have hview := @foldlM_view ε α β γ f view (fun v _ => v) hstep bs a a' h
  rwa [foldl_fixed] at hview

section Related

variable {β γ : Type*} {R : β → γ → Prop} {bs : List β} {cs : List γ} (h : List.Forall₂ R bs cs)
include h

theorem exists_right_of_forall₂ {b : β} (hb : b ∈ bs) : ∃ c ∈ cs, R b c := by
  induction h with
  | nil => cases hb
  | cons hhead _ ih =>
    rcases mem_cons.mp hb with rfl | hb
    · exact ⟨_, mem_cons_self, hhead⟩
    · obtain ⟨c, hc, hR⟩ := ih hb
      exact ⟨c, mem_cons_of_mem _ hc, hR⟩

theorem exists_left_of_forall₂ {c : γ} (hc : c ∈ cs) : ∃ b ∈ bs, R b c :=
  exists_right_of_forall₂ h.flip hc

end Related

/-- A loop that collects the results of checks succeeds where each of them does. -/
theorem mapM_unit_ok {β : Type v} {f : β → Except ε PUnit.{v + 1}} {bs : List β} :
    (∃ units, bs.mapM f = .ok units) ↔ ∀ b ∈ bs, f b = .ok ⟨⟩ := by
  constructor
  · rintro ⟨units, hunits⟩ b hb
    obtain ⟨_, -, hu⟩ := exists_right_of_forall₂ (mapM_ok.mp hunits) hb
    exact hu
  · intro h
    exact ⟨bs.map fun _ => ⟨⟩, mapM_ok.mpr (forall₂_map_right_iff.mpr (forall₂_same.mpr h))⟩

/-- Fail unless a condition holds. -/
def ensure (condition : Prop) [Decidable condition] (error : ε) : Except ε Unit :=
  if condition then .ok () else .error error

variable {error : ε} {condition : Prop} [Decidable condition]

theorem ensure_ok {u : Unit} : ensure condition error = .ok u ↔ condition := by
  unfold ensure
  split <;> simp_all

theorem ensure_bind {β : Type} {f : Unit → Except ε β} {b : β} :
    (ensure condition error >>= f) = .ok b ↔ condition ∧ f () = .ok b := by
  by_cases h : condition <;> simp [ensure, h, bind, Except.bind]

theorem ensure_of (h : condition) : ensure condition error = .ok () := if_pos h

/-- `ok_or`: the value, or an error where there is none. -/
def okOr (value : Option α) (error : ε) : Except ε α :=
  match value with
  | some a => .ok a
  | none => .error error

theorem okOr_ok {value : Option α} {a : α} : okOr value error = .ok a ↔ value = some a := by
  cases value <;> simp [okOr]

theorem okOr_bind {β : Type v} {value : Option α} {f : α → Except ε β} {b : β} :
    (okOr value error >>= f) = .ok b ↔ ∃ a, value = some a ∧ f a = .ok b := by
  simp only [bind_ok, okOr_ok]

end Results
