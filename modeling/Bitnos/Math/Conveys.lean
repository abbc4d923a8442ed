/-
# Texts that can be read back

A text conveys something about what it was written for, if that can be read off its front,
whatever comes behind. What conveys one thing, followed by what conveys another, conveys both,
and a number conveys itself if it is clear where it ends. A template is literal text with
places for numbers; it is delimited if the text behind a place begins with a character that
no number has.
-/

import Mathlib.Data.List.Basic

variable {α β γ δ : Type*}

/-- From the front of the text one can tell `view`, and where the text ends. -/
def Conveys (print : α → List β) (view : α → γ) : Prop :=
  ∀ ⦃a b s t⦄, print a ++ s = print b ++ t → view a = view b ∧ s = t

namespace Conveys

variable {print print' : α → List β} {view : α → γ} {view' : α → δ} {l l' : List α} {s t : List β}
  {a b : α}

theorem literal (text : List β) : Conveys (fun _ : α => text) fun _ => () :=
  fun _ _ _ _ h => ⟨rfl, List.append_cancel_left h⟩

/-- How the second text is to be read may depend on what the first one conveys. -/
theorem append_of (h : Conveys print view)
    (h' : ∀ ⦃a b s t⦄, view a = view b → print' a ++ s = print' b ++ t → view' a = view' b ∧ s = t) :
    Conveys (fun a => print a ++ print' a) fun a => (view a, view' a) := by
  intro a b s t heq
  rw [List.append_assoc, List.append_assoc] at heq
  -- the first text is read, then the second one with what is known from it
  obtain ⟨hview, heq⟩ := h heq
  obtain ⟨hview', hrest⟩ := h' hview heq
  exact ⟨Prod.ext hview hview', hrest⟩

theorem append (h : Conveys print view) (h' : Conveys print' view') :
    Conveys (fun a => print a ++ print' a) fun a => (view a, view' a) :=
  h.append_of fun _ _ _ _ _ heq => h' heq

/-- Less is conveyed as well. -/
theorem of_view (h : Conveys print view) (hview : ∀ a b, view a = view b → view' a = view' b) :
    Conveys print view' :=
  fun _ _ _ _ heq => (h heq).imp_left (hview _ _)

theorem comp (h : Conveys print view) (f : δ → α) :
    Conveys (fun d => print (f d)) fun d => view (f d) :=
  fun _ _ _ _ heq => h heq

theorem view_eq (h : Conveys print view) (heq : print a = print b) : view a = view b :=
  (h (congrArg (· ++ []) heq)).1

/-- Of a list whose length is known all items are conveyed. -/
theorem flatMap_of_length_eq (h : Conveys print view) (hlength : l.length = l'.length)
    (heq : l.flatMap print ++ s = l'.flatMap print ++ t) : l.map view = l'.map view ∧ s = t := by
  induction l generalizing l' with
  | nil =>
    obtain rfl := List.length_eq_zero_iff.mp hlength.symm
    exact ⟨rfl, heq⟩
  | cons a l ih =>
    obtain ⟨b, l', rfl⟩ := List.exists_cons_of_length_eq_add_one hlength.symm
    rw [List.flatMap_cons, List.flatMap_cons, List.append_assoc, List.append_assoc] at heq
    obtain ⟨hhead, heq⟩ := h heq
    obtain ⟨htail, hrest⟩ := ih (Nat.add_right_cancel hlength) heq
    exact ⟨List.cons_eq_cons.mpr ⟨hhead, htail⟩, hrest⟩

/-- The same for items that are counted. -/
theorem flatMap_range (h : Conveys print view) {n : ℕ} {f g : ℕ → α}
    (heq : ((List.range n).flatMap fun i => print (f i)) ++ s =
      ((List.range n).flatMap fun i => print (g i)) ++ t) :
    (∀ i < n, view (f i) = view (g i)) ∧ s = t := by
  have hitems :=
    @flatMap_of_length_eq _ _ _ print view ((List.range n).map f) ((List.range n).map g) s t h
    (by rw [List.length_map, List.length_map])
  rw [List.flatMap_map, List.flatMap_map, List.map_map, List.map_map, List.map_inj_left] at hitems
  obtain ⟨hview, hrest⟩ := hitems heq
  exact ⟨fun i hi => hview i (List.mem_range.mpr hi), hrest⟩

/-- Where nothing follows the list, its length is conveyed too. -/
theorem flatMap (h : Conveys print view) (hne : ∀ a, print a ≠ [])
    (heq : l.flatMap print = l'.flatMap print) : l.map view = l'.map view := by
  induction l generalizing l' with
  | nil =>
    cases l' with
    | nil => rfl
    | cons b l' => exact absurd (List.append_eq_nil_iff.mp heq.symm).1 (hne b)
  | cons a l ih =>
    cases l' with
    | nil => exact absurd (List.append_eq_nil_iff.mp heq).1 (hne a)
    | cons b l' =>
      rw [List.flatMap_cons, List.flatMap_cons] at heq
      obtain ⟨hhead, htail⟩ := h heq
      exact List.cons_eq_cons.mpr ⟨hhead, ih htail⟩

theorem eq_of_append_cons {c : β} {p q : List β} (hp : c ∉ p) (hq : c ∉ q)
    (heq : p ++ c :: s = q ++ c :: t) : p = q ∧ s = t := by
  induction p generalizing q with
  | nil =>
    cases q with
    | nil => exact ⟨rfl, List.tail_eq_of_cons_eq heq⟩
    | cons d q => exact absurd ((List.head_eq_of_cons_eq heq).symm ▸ List.mem_cons_self) hq
  | cons d p ih =>
    cases q with
    | nil => exact absurd ((List.head_eq_of_cons_eq heq) ▸ List.mem_cons_self) hp
    | cons e q =>
      obtain ⟨rfl, htail⟩ := List.cons_eq_cons.mp heq
      obtain ⟨rfl, hrest⟩ :=
        ih (List.not_mem_of_not_mem_cons hp) (List.not_mem_of_not_mem_cons hq) htail
      exact ⟨rfl, hrest⟩

/-- A text ends before the first character that is in none. -/
theorem stop {c : β} (hstop : ∀ a, c ∉ print a) (hview : ∀ a b, print a = print b → view a = view b) :
    Conveys (fun a => print a ++ [c]) view := by
  intro a b s t heq
  rw [List.append_assoc, List.append_assoc] at heq
  obtain ⟨hprint, hrest⟩ := eq_of_append_cons (hstop a) (hstop b) heq
  exact ⟨hview a b hprint, hrest⟩

end Conveys

/-! ### Templates -/

/-- A way to write numbers, with the characters it takes. -/
structure Numeric (β : Type*) where
  write : ℕ → List β
  alphabet : β → Bool
  injective : Function.Injective write
  alphabet_of_mem : ∀ {n c}, c ∈ write n → alphabet c = true

/-- A character of a template, or a place for a number. -/
inductive Piece (β : Type*)
  | char (c : β)
  | number (style : Numeric β)

namespace Template

/-- The text for given numbers. -/
def render : List (Piece β) → List ℕ → List β
  | [], _ => []
  | .char c :: ps, ns => c :: render ps ns
  | .number style :: ps, n :: ns => style.write n ++ render ps ns
  | .number _ :: _, [] => []

/-- The template has so many places, and behind each one there is a character no number written
there has. -/
def delimited : List (Piece β) → ℕ → Bool
  | [], n => n == 0
  | .char _ :: ps, n => delimited ps n
  | .number style :: .char c :: ps, n + 1 => !style.alphabet c && delimited ps n
  | .number _ :: _, _ => false

theorem render_cancel {ps : List (Piece β)} {n : ℕ} (hps : delimited ps n = true) {ns ms : List ℕ}
    {s t : List β} (hns : ns.length = n) (hms : ms.length = n)
    (heq : render ps ns ++ s = render ps ms ++ t) : ns = ms ∧ s = t := by
  induction ps, n using delimited.induct generalizing ns ms with
  | case1 n =>
    obtain rfl := eq_of_beq hps
    rw [List.length_eq_zero_iff.mp hns, List.length_eq_zero_iff.mp hms]
    exact ⟨rfl, heq⟩
  | case2 n c ps ih =>
    exact ih hps hns hms (List.cons_eq_cons.mp heq).2
  | case3 style c ps n ih =>
    obtain ⟨hc, hps⟩ := (Bool.and_eq_true _ _).mp hps
    -- one number is written at this place by either side
    obtain ⟨k, ns, rfl⟩ := List.exists_cons_of_length_eq_add_one hns
    obtain ⟨k', ms, rfl⟩ := List.exists_cons_of_length_eq_add_one hms
    -- the number ends before `c`
    have hstop : ∀ k, c ∉ style.write k := by
      intro k hmem
      rw [style.alphabet_of_mem hmem] at hc
      cases hc
    have hsplit : style.write k ++ [c] ++ (render ps ns ++ s) =
        style.write k' ++ [c] ++ (render ps ms ++ t) := by
      simpa only [render, List.append_assoc, List.cons_append, List.nil_append] using heq
    obtain ⟨hk, hrest⟩ := Conveys.stop hstop (fun _ _ h => style.injective h) hsplit
    obtain ⟨hns, hst⟩ := ih hps (Nat.succ_inj.mp hns) (Nat.succ_inj.mp hms) hrest
    exact ⟨List.cons_eq_cons.mpr ⟨hk, hns⟩, hst⟩
  | case4 style ps n hother => simp_all [delimited]

/-- A delimited template conveys its numbers. -/
theorem conveys {ps : List (Piece β)} {n : ℕ} (hps : delimited ps n = true) {args : α → List ℕ}
    (hargs : ∀ a, (args a).length = n) : Conveys (fun a => render ps (args a)) args :=
  fun a b _ _ heq => render_cancel hps (hargs a) (hargs b) heq

end Template
