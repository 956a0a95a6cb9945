import Mathlib.Data.List.Forall2

/-!
# Related lists and options

Functions of lists and options that treat related members alike have related results
(`List.Forall₂`, `Option.Rel`), and equal results if they read the same off related members.
-/

set_option autoImplicit false

namespace ScriptTaint

open List (Forall₂)

variable {α β γ δ : Type} {R : α → β → Prop} {S : γ → δ → Prop} {l : List α} {l' : List β}
  {o : Option α} {o' : Option β}

/-! ## Lists -/

theorem map_eq_of_forall₂ {f : α → γ} {g : β → γ} (h : Forall₂ (fun a b => f a = g b) l l') :
    l.map f = l'.map g := by
  induction h with
  | nil => rfl
  | cons hab _ ih => rw [List.map_cons, List.map_cons, hab, ih]

theorem flatMap_eq_of_forall₂ {f : α → List γ} {g : β → List γ}
    (h : Forall₂ (fun a b => f a = g b) l l') : l.flatMap f = l'.flatMap g := by
  rw [List.flatMap, List.flatMap, map_eq_of_forall₂ h]

theorem any_eq_of_forall₂ {f : α → Bool} {g : β → Bool} (h : Forall₂ R l l')
    (hR : ∀ a b, R a b → f a = g b) : l.any f = l'.any g := by
  induction h with
  | nil => rfl
  | cons hab _ ih => rw [List.any_cons, List.any_cons, hR _ _ hab, ih]

theorem forall₂_of_mem {S : α → β → Prop} (h : Forall₂ R l l')
    (hS : ∀ a ∈ l, ∀ b, R a b → S a b) : Forall₂ S l l' := by
  have hmem : Forall₂ (fun a b => a ∈ l ∧ R a b) l l' :=
    (List.forall₂_and_left _ _).2 ⟨fun _ ha => ha, h⟩
  exact hmem.imp fun a b hab => hS a hab.1 b hab.2

/-- A member of related lists has a partner. -/
theorem exists_mem_of_forall₂ (h : Forall₂ R l l') {a : α} (ha : a ∈ l) : ∃ b ∈ l', R a b := by
  induction h with
  | nil => cases ha
  | cons hab _ ih =>
    rcases List.mem_cons.1 ha with rfl | ha
    · exact ⟨_, List.mem_cons_self, hab⟩
    · obtain ⟨b, hb, hr⟩ := ih ha
      exact ⟨b, List.mem_cons_of_mem _ hb, hr⟩

theorem forall₂_flatMap {f : α → List γ} {g : β → List δ} (h : Forall₂ R l l')
    (hf : ∀ a b, R a b → Forall₂ S (f a) (g b)) : Forall₂ S (l.flatMap f) (l'.flatMap g) :=
  List.rel_flatMap h fun a b hab => hf a b hab

theorem forall₂_takeWhile {p : α → Bool} {q : β → Bool} (h : Forall₂ R l l')
    (hpq : ∀ a b, R a b → p a = q b) : Forall₂ R (l.takeWhile p) (l'.takeWhile q) := by
  induction h with
  | nil => exact .nil
  | @cons a b l l' hab _ ih =>
    rw [List.takeWhile_cons, List.takeWhile_cons, hpq a b hab]
    cases q b with
    | true => exact .cons hab ih
    | false => exact .nil

theorem forall₂_filter {p : α → Bool} {q : β → Bool} (h : Forall₂ R l l')
    (hpq : ∀ a b, R a b → p a = q b) : Forall₂ R (l.filter p) (l'.filter q) :=
  List.rel_filter (fun a b hab => by simp [hpq a b hab]) h

theorem rel_head? (h : Forall₂ R l l') : Option.Rel R l.head? l'.head? := by
  cases h with
  | nil => exact .none
  | cons hab _ => exact .some hab

theorem rel_getLast? (h : Forall₂ R l l') : Option.Rel R l.getLast? l'.getLast? := by
  rw [List.getLast?_eq_head?_reverse, List.getLast?_eq_head?_reverse]
  exact rel_head? (List.rel_reverse h)

theorem rel_getElem? (h : Forall₂ R l l') (i : Nat) : Option.Rel R l[i]? l'[i]? := by
  induction h generalizing i with
  | nil => exact .none
  | cons hab _ ih =>
    cases i with
    | zero => exact .some hab
    | succ i =>
      rw [List.getElem?_cons_succ, List.getElem?_cons_succ]
      exact ih i

theorem forall₂_map_right {f : α → β} (h : ∀ a ∈ l, R a (f a)) : Forall₂ R l (l.map f) := by
  rw [List.forall₂_map_right_iff, List.forall₂_same]
  exact h

theorem forall₂_zip_tail (h : Forall₂ R l l') :
    Forall₂ (fun p p' => R p.1 p'.1 ∧ R p.2 p'.2) (l.zip l.tail) (l'.zip l'.tail) := by
  induction h with
  | nil => exact .nil
  | cons hab htail ih =>
    cases htail with
    | nil => exact .nil
    | cons hcd _ => exact .cons ⟨hab, hcd⟩ ih

theorem rel_find? {p : α → Bool} {q : β → Bool} (h : Forall₂ R l l')
    (hpq : ∀ a b, R a b → p a = q b) : Option.Rel R (l.find? p) (l'.find? q) := by
  induction h with
  | nil => exact .none
  | @cons a b l l' hab _ ih =>
    rw [List.find?_cons, List.find?_cons, hpq a b hab]
    cases q b with
    | true => exact .some hab
    | false => exact ih

/-! ## Options -/

theorem rel_bind {f : α → Option γ} {g : β → Option δ} (h : Option.Rel R o o')
    (hf : ∀ a b, R a b → Option.Rel S (f a) (g b)) : Option.Rel S (o.bind f) (o'.bind g) := by
  cases h with
  | none => exact .none
  | some hab => exact hf _ _ hab

theorem map_eq_of_rel {f : α → γ} {g : β → γ} (h : Option.Rel R o o')
    (hf : ∀ a b, R a b → f a = g b) : o.map f = o'.map g := by
  cases h with
  | none => rfl
  | some hab => exact congrArg some (hf _ _ hab)

theorem any_eq_of_rel {f : α → Bool} {g : β → Bool} (h : Option.Rel R o o')
    (hf : ∀ a b, R a b → f a = g b) : o.any f = o'.any g := by
  cases h with
  | none => rfl
  | some hab => exact hf _ _ hab

theorem rel_or {p : Option α} {p' : Option β} (h : Option.Rel R o o')
    (h' : Option.Rel R p p') : Option.Rel R (o.or p) (o'.or p') := by
  cases h with
  | none => exact h'
  | some hab => exact .some hab

theorem isNone_eq_of_rel (h : Option.Rel R o o') : o.isNone = o'.isNone := by
  cases h <;> rfl

theorem rel_optionFilter {p : α → Bool} {q : β → Bool} (h : Option.Rel R o o')
    (hpq : ∀ a b, R a b → p a = q b) : Option.Rel R (o.filter p) (o'.filter q) := by
  cases h with
  | none => exact .none
  | @some a b hab =>
    simp only [Option.filter_some, hpq a b hab]
    split
    · exact .some hab
    · exact .none

theorem forall₂_toList (h : Option.Rel R o o') : Forall₂ R o.toList o'.toList := by
  cases h with
  | none => exact .nil
  | some hab => exact .cons hab .nil

end ScriptTaint
