import Mathlib.Data.List.Basic

/-!
Codes that can be cut off the front of any longer string. `Deciphers dom enc`
says that two codewords of the domain, each followed by anything, are equal as
soon as the two strings are, and so is what follows them. `Drops mark out raw
exact` is what a lossy copy of raw owes: it never gains a mark, and one that keeps
them all and agrees with raw as far as both go is raw, and then exact holds.
-/
namespace PrefixCodes
variable {α β S : Type}

def Deciphers (dom : α → Prop) (enc : α → List S) : Prop :=
  ∀ x y, dom x → dom y → ∀ s t, enc x ++ s = enc y ++ t → x = y ∧ s = t

theorem deciphers_subdomain {p q : α → Prop} {enc : α → List S} (h : Deciphers q enc)
    (sub : ∀ x, p x → q x) : Deciphers p enc :=
  fun x y hx hy s t same => h x y (sub x hx) (sub y hy) s t same

theorem deciphers_injective {dom : α → Prop} {enc : α → List S} (h : Deciphers dom enc)
    {x y : α} (hx : dom x) (hy : dom y) (same : enc x = enc y) : x = y :=
  (h x y hx hy [] [] (by rw [same])).1

theorem fixed_width_deciphers {dom : α → Prop} {enc : α → List S} (width : Nat)
    (len : ∀ x, dom x → (enc x).length = width)
    (inj : ∀ x y, dom x → dom y → enc x = enc y → x = y) : Deciphers dom enc := by
  intro x y hx hy s t same
  obtain ⟨front, back⟩ := List.append_inj same ((len x hx).trans (len y hy).symm)
  exact ⟨inj x y hx hy front, back⟩

theorem pair_deciphers {p : α → Prop} {q : β → Prop} {f : α → List S} {g : β → List S}
    (hf : Deciphers p f) (hg : Deciphers q g) :
    Deciphers (fun x : α × β => p x.1 ∧ q x.2) (fun x => f x.1 ++ g x.2) := by
  rintro ⟨a, b⟩ ⟨c, d⟩ ⟨pa, qb⟩ ⟨pc, qd⟩ s t same
  simp only [List.append_assoc] at same
  obtain ⟨first, rest⟩ := hf a c pa pc _ _ same
  obtain ⟨second, tail⟩ := hg b d qb qd _ _ rest
  exact ⟨by rw [first, second], tail⟩

theorem view_deciphers {p : α → Prop} {f : α → List S} (hf : Deciphers p f) (view : β → α)
    (inj : ∀ x y, view x = view y → x = y) :
    Deciphers (fun b => p (view b)) (fun b => f (view b)) := by
  intro x y hx hy s t same
  obtain ⟨first, rest⟩ := hf (view x) (view y) hx hy s t same
  exact ⟨inj x y first, rest⟩

theorem items_decipher {p : α → Prop} {enc : α → List S} (h : Deciphers p enc)
    (xs ys : List α) (hx : ∀ x ∈ xs, p x) (hy : ∀ y ∈ ys, p y) (count : xs.length = ys.length)
    (s t : List S) (same : xs.flatMap enc ++ s = ys.flatMap enc ++ t) : xs = ys ∧ s = t := by
  induction xs generalizing ys with
  | nil =>
    have empty : ys = [] := List.length_eq_zero_iff.mp count.symm
    subst ys
    exact ⟨rfl, by simpa using same⟩
  | cons x xs ih =>
    cases ys with
    | nil => simp at count
    | cons y ys =>
      simp only [List.flatMap_cons, List.append_assoc] at same
      obtain ⟨head, rest⟩ := h x y (hx x (by simp)) (hy y (by simp)) _ _ same
      obtain ⟨tail, after⟩ := ih ys (fun a m => hx a (by simp [m])) (fun a m => hy a (by simp [m]))
        (by simpa using count) rest
      exact ⟨by rw [head, tail], after⟩

/-- Without empty codewords no count has to come in front. -/
theorem flatMap_deciphered {p : α → Prop} {enc : α → List S} (h : Deciphers p enc)
    (filled : ∀ x, p x → enc x ≠ []) {xs ys : List α} (hx : ∀ x ∈ xs, p x) (hy : ∀ y ∈ ys, p y)
    (same : xs.flatMap enc = ys.flatMap enc) : xs = ys := by
  induction xs generalizing ys with
  | nil =>
    cases ys with
    | nil => rfl
    | cons y ys =>
      simp only [List.flatMap_nil, List.flatMap_cons] at same
      exact absurd (List.append_eq_nil_iff.mp same.symm).1 (filled y (hy y (by simp)))
  | cons x xs ih =>
    cases ys with
    | nil =>
      simp only [List.flatMap_nil, List.flatMap_cons] at same
      exact absurd (List.append_eq_nil_iff.mp same).1 (filled x (hx x (by simp)))
    | cons y ys =>
      simp only [List.flatMap_cons] at same
      obtain ⟨head, rest⟩ := h x y (hx x (by simp)) (hy y (by simp)) _ _ same
      rw [head, ih (fun a m => hx a (by simp [m])) (fun a m => hy a (by simp [m])) rest]

theorem counted_deciphers {p : α → Prop} {q : Nat → Prop} {enc : α → List S}
    {count : Nat → List S} (hc : Deciphers q count) (h : Deciphers p enc) :
    Deciphers (fun xs : List α => q xs.length ∧ ∀ x ∈ xs, p x)
      (fun xs => count xs.length ++ xs.flatMap enc) := by
  rintro xs ys ⟨qx, hx⟩ ⟨qy, hy⟩ s t same
  simp only [List.append_assoc] at same
  obtain ⟨length, rest⟩ := hc _ _ qx qy _ _ same
  exact items_decipher h xs ys hx hy length s t rest

section LossyCopies
variable [DecidableEq S] {mark : S}

def Drops (mark : S) (out raw : List S) (exact : Prop) : Prop :=
  out.count mark ≤ raw.count mark ∧
    (out.count mark = raw.count mark → ∀ s t, out ++ s = raw ++ t → out = raw ∧ exact)

theorem drops_same (word : List S) : Drops mark word word True :=
  ⟨Nat.le_refl _, fun _ _ _ _ => ⟨rfl, trivial⟩⟩

theorem drops_fewer {out raw : List S} {exact : Prop} (fewer : out.count mark < raw.count mark) :
    Drops mark out raw exact :=
  ⟨Nat.le_of_lt fewer, fun same => absurd same (Nat.ne_of_lt fewer)⟩

theorem drops_append {out raw out' raw' : List S} {p q : Prop} (first : Drops mark out raw p)
    (second : Drops mark out' raw' q) : Drops mark (out ++ out') (raw ++ raw') (p ∧ q) := by
  obtain ⟨less, exact⟩ := first
  obtain ⟨less', exact'⟩ := second
  refine ⟨by simp only [List.count_append]; omega, ?_⟩
  intro kept s t same
  simp only [List.count_append] at kept
  simp only [List.append_assoc] at same
  obtain ⟨front, hp⟩ := exact (by omega) _ _ same
  rw [front, List.append_cancel_left_eq] at same
  obtain ⟨back, hq⟩ := exact' (by omega) _ _ same
  exact ⟨by rw [front, back], hp, hq⟩

/-- A first part that is never exact settles the whole. -/
theorem drops_append_never {out raw out' raw' : List S} (never : Drops mark out raw False)
    (fewer : out'.count mark ≤ raw'.count mark) :
    Drops mark (out ++ out') (raw ++ raw') False := by
  obtain ⟨less, exact⟩ := never
  refine ⟨by simp only [List.count_append]; omega, ?_⟩
  intro kept s t same
  simp only [List.count_append] at kept
  simp only [List.append_assoc] at same
  exact (exact (by omega) _ _ same).2.elim

theorem drops_weaken {out raw : List S} {p q : Prop} (drops : Drops mark out raw p)
    (weaker : p → q) : Drops mark out raw q :=
  ⟨drops.1, fun kept s t same => (drops.2 kept s t same).imp_right weaker⟩

/-- What holds of an exact copy includes that it is one. -/
theorem drops_known {out raw : List S} {exact : Prop} (drops : Drops mark out raw exact) :
    Drops mark out raw (out = raw ∧ exact) :=
  ⟨drops.1, fun kept s t same => ⟨(drops.2 kept s t same).1, drops.2 kept s t same⟩⟩

theorem drops_exact {out raw : List S} {exact : Prop} (drops : Drops mark out raw exact)
    (same : out = raw) : exact :=
  (drops.2 (by rw [same]) [] [] (by rw [same])).2

end LossyCopies

end PrefixCodes
