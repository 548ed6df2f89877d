import Mathlib.Data.List.Forall2

/-! # Programs that may fail

A program that has succeeded has a first part that has (`bind_eq_ok_iff`), and one whose parts
succeed does (`exists_bind`). What a program does to each element of a list, it does to the whole
list (`mapM_eq_ok_iff`, `exists_mapM_iff`, `mem_joined_iff`, `filter_joined`), or it fails as it
does on the first element on which it fails (`isFirst_of_mapM_error`). What each step of a fold
keeps, the fold keeps (`foldlM_keeps`). Programs that take the same steps first and fail in none of the
rest fail alike (`FailAlike`). -/

namespace UnitLint

variable {ε α β γ δ : Type}

theorem bind_eq_ok_iff {x : Except ε α} {f : α → Except ε β} {b : β} :
    (x >>= f) = .ok b ↔ ∃ a, x = .ok a ∧ f a = .ok b := by
  cases x with
  | error e => exact ⟨nofun, fun ⟨a, ha, _⟩ => nomatch ha⟩
  | ok a =>
    refine ⟨fun h => ⟨a, rfl, h⟩, ?_⟩
    rintro ⟨a', ha', h⟩
    cases ha'
    exact h

theorem bind_eq_error_iff {x : Except ε α} {f : α → Except ε β} {e : ε} :
    (x >>= f) = .error e ↔ x = .error e ∨ ∃ a, x = .ok a ∧ f a = .error e := by
  cases x with
  | error e' =>
    refine ⟨fun h => Or.inl (by cases h; rfl), ?_⟩
    rintro (h | ⟨a, ha, -⟩)
    · cases h
      rfl
    · cases ha
  | ok a =>
    refine ⟨fun h => Or.inr ⟨a, rfl, h⟩, ?_⟩
    rintro (h | ⟨a', ha', h⟩)
    · cases h
    · cases ha'
      exact h

theorem exists_of_isSome {x : Except ε α} (h : x.toOption.isSome = true) : ∃ a, x = .ok a := by
  cases x with
  | error e => cases h
  | ok a => exact ⟨a, rfl⟩

theorem exists_bind {x : Except ε α} {f : α → Except ε β} (hx : ∃ a, x = .ok a)
    (hf : ∀ a, ∃ b, f a = .ok b) : ∃ b, (x >>= f) = .ok b := by
  obtain ⟨a, ha⟩ := hx
  obtain ⟨b, hb⟩ := hf a
  exact ⟨b, bind_eq_ok_iff.mpr ⟨a, ha, hb⟩⟩

theorem mapM_congr {f g : α → Except ε β} {as : List α} (h : ∀ a ∈ as, f a = g a) :
    as.mapM f = as.mapM g := by
  induction as with
  | nil => rfl
  | cons a as ih =>
    have hrest := ih fun a' ha' => h a' (List.mem_cons_of_mem a ha')
    rw [List.mapM_cons, List.mapM_cons, h a (List.mem_cons_self ..), hrest]

theorem exists_of_mem_mapM {f : α → Except ε β} {as : List α} {bs : List β}
    (h : as.mapM f = .ok bs) {b : β} (hb : b ∈ bs) : ∃ a ∈ as, f a = .ok b := by
  induction as generalizing bs with
  | nil =>
    rw [List.mapM_nil] at h
    cases h
    cases hb
  | cons a as ih =>
    rw [List.mapM_cons] at h
    obtain ⟨b', hb', h⟩ := bind_eq_ok_iff.mp h
    obtain ⟨bs', hbs', h⟩ := bind_eq_ok_iff.mp h
    cases h
    rcases List.mem_cons.mp hb with rfl | hb
    · exact ⟨a, List.mem_cons_self .., hb'⟩
    · obtain ⟨a', ha', hb⟩ := ih hbs' hb
      exact ⟨a', List.mem_cons_of_mem a ha', hb⟩

theorem forall₂_of_mapM {f : α → Except ε β} {as : List α} {bs : List β}
    (h : as.mapM f = .ok bs) : List.Forall₂ (fun a b => f a = .ok b) as bs := by
  induction as generalizing bs with
  | nil =>
    rw [List.mapM_nil] at h
    cases h
    exact List.Forall₂.nil
  | cons a as ih =>
    rw [List.mapM_cons] at h
    obtain ⟨b, hb, h⟩ := bind_eq_ok_iff.mp h
    obtain ⟨bs, hbs, h⟩ := bind_eq_ok_iff.mp h
    cases h
    exact List.Forall₂.cons hb (ih hbs)

theorem mapM_eq_ok_iff {f : α → Except ε β} {as : List α} {bs : List β} :
    as.mapM f = .ok bs ↔ List.Forall₂ (fun a b => f a = .ok b) as bs := by
  refine ⟨forall₂_of_mapM, fun h => ?_⟩
  induction h with
  | nil => rfl
  | cons hb _ ih =>
    rw [List.mapM_cons]
    exact bind_eq_ok_iff.mpr ⟨_, hb, bind_eq_ok_iff.mpr ⟨_, ih, rfl⟩⟩

theorem mapM_mono {f g : α → Except ε β} (hfg : ∀ a b, f a = .ok b → g a = .ok b)
    {as : List α} {bs : List β} (h : as.mapM f = .ok bs) : as.mapM g = .ok bs :=
  mapM_eq_ok_iff.mpr ((mapM_eq_ok_iff.mp h).imp fun _ _ hf => hfg _ _ hf)

/-- What a list comes to is what its elements come to. -/
theorem mem_iff_of_mapM {f : α → Except ε β} {as : List α} {bs : List β}
    (h : as.mapM f = .ok bs) {b : β} : b ∈ bs ↔ ∃ a ∈ as, f a = .ok b := by
  refine ⟨exists_of_mem_mapM h, ?_⟩
  rintro ⟨a, ha, hb⟩
  have hpairs := forall₂_of_mapM h
  induction hpairs with
  | nil => cases ha
  | @cons a' b' as bs hb' hbs ih =>
    rcases List.mem_cons.mp ha with rfl | ha
    · obtain rfl := Except.ok.inj (hb'.symm.trans hb)
      exact List.mem_cons_self
    · exact List.mem_cons_of_mem b' (ih (mapM_eq_ok_iff.mpr hbs) ha)

/-- The element is the first of the list with the property. -/
def IsFirst (p : α → Prop) (as : List α) (a : α) : Prop :=
  p a ∧ ∃ before after, as = before ++ a :: after ∧ ∀ b ∈ before, ¬ p b

/-- A program that fails on a list fails as it does on the first element on which it fails. -/
theorem isFirst_of_mapM_error {f : α → Except ε β} {as : List α} {e : ε}
    (h : as.mapM f = .error e) :
    ∃ a, f a = .error e ∧ IsFirst (fun a => ∃ e, f a = .error e) as a := by
  induction as with
  | nil => cases h
  | cons a as ih =>
    rw [List.mapM_cons] at h
    rcases bind_eq_error_iff.mp h with ha | ⟨b, hb, h⟩
    · exact ⟨a, ha, ⟨e, ha⟩, [], as, rfl, nofun⟩
    · rcases bind_eq_error_iff.mp h with has | ⟨bs, -, h⟩
      · obtain ⟨a', ha', hfails, before, after, rfl, hbefore⟩ := ih has
        refine ⟨a', ha', hfails, a :: before, after, rfl, fun b' hb' => ?_⟩
        rcases List.mem_cons.mp hb' with rfl | hb'
        · rintro ⟨e', he'⟩
          rw [hb] at he'
          cases he'
        · exact hbefore b' hb'
      · cases h

theorem IsFirst.mem {p : α → Prop} {as : List α} {a : α} (h : IsFirst p as a) : a ∈ as := by
  obtain ⟨-, before, after, rfl, -⟩ := h
  exact List.mem_append_right before List.mem_cons_self

theorem IsFirst.congr {p q : α → Prop} {as : List α} {a : α} (hpq : ∀ a, p a ↔ q a)
    (h : IsFirst p as a) : IsFirst q as a := by
  obtain ⟨ha, before, after, has, hbefore⟩ := h
  exact ⟨(hpq a).mp ha, before, after, has, fun b hb => mt (hpq b).mpr (hbefore b hb)⟩

theorem exists_mapM_iff {f : α → Except ε β} {as : List α} :
    (∃ bs, as.mapM f = .ok bs) ↔ ∀ a ∈ as, ∃ b, f a = .ok b := by
  induction as with
  | nil => simp [pure, Except.pure]
  | cons a as ih =>
    rw [List.forall_mem_cons, ← ih, List.mapM_cons]
    constructor
    · rintro ⟨bs, h⟩
      obtain ⟨b, hb, h⟩ := bind_eq_ok_iff.mp h
      obtain ⟨bs', hbs', -⟩ := bind_eq_ok_iff.mp h
      exact ⟨⟨b, hb⟩, bs', hbs'⟩
    · rintro ⟨⟨b, hb⟩, bs, hbs⟩
      exact ⟨b :: bs, bind_eq_ok_iff.mpr ⟨b, hb, bind_eq_ok_iff.mpr ⟨bs, hbs, rfl⟩⟩⟩

theorem mapM_eq_map {f g : α → Except ε β} {φ : β → β} {as : List α}
    (h : ∀ a ∈ as, g a = (f a).map φ) : as.mapM g = (as.mapM f).map (List.map φ) := by
  induction as with
  | nil => rfl
  | cons a as ih =>
    have hrest := ih fun a' ha' => h a' (List.mem_cons_of_mem a ha')
    rw [List.mapM_cons, List.mapM_cons, h a List.mem_cons_self, hrest]
    cases f a with
    | error e => rfl
    | ok b => cases as.mapM f <;> rfl

theorem flatMap_of_mapM {f : α → Except ε β} {F : β → List γ} {G : α → List γ} {as : List α}
    {bs : List β} (h : as.mapM f = .ok bs) (hstep : ∀ a ∈ as, ∀ b, f a = .ok b → F b = G a) :
    bs.flatMap F = as.flatMap G := by
  induction as generalizing bs with
  | nil =>
    rw [List.mapM_nil] at h
    cases h
    rfl
  | cons a as ih =>
    rw [List.mapM_cons] at h
    obtain ⟨b, hb, h⟩ := bind_eq_ok_iff.mp h
    obtain ⟨bs, hbs, h⟩ := bind_eq_ok_iff.mp h
    cases h
    have hrest := ih hbs fun a' ha' => hstep a' (List.mem_cons_of_mem a ha')
    rw [List.flatMap_cons, List.flatMap_cons, hrest, hstep a List.mem_cons_self b hb]

/-- What a program lists for each element of a list, one after the other, after what comes first. -/
def joined (first : List γ) (f : α → Except ε (List γ)) (as : List α) : Except ε (List γ) := do
  let lists ← as.mapM f
  return first ++ lists.flatten

theorem mem_joined_iff {first : List γ} {f : α → Except ε (List γ)} {as : List α} {all : List γ}
    (h : joined first f as = .ok all) {c : γ} :
    c ∈ all ↔ c ∈ first ∨ ∃ a ∈ as, ∃ list, f a = .ok list ∧ c ∈ list := by
  obtain ⟨lists, hlists, h⟩ := bind_eq_ok_iff.mp h
  cases h
  rw [List.mem_append, List.mem_flatten]
  refine or_congr_right ⟨?_, ?_⟩
  · rintro ⟨list, hlist, hc⟩
    obtain ⟨a, ha, hlist⟩ := (mem_iff_of_mapM hlists).mp hlist
    exact ⟨a, ha, list, hlist, hc⟩
  · rintro ⟨a, ha, list, hlist, hc⟩
    exact ⟨list, (mem_iff_of_mapM hlists).mpr ⟨a, ha, hlist⟩, hc⟩

theorem exists_of_joined {first : List γ} {f : α → Except ε (List γ)} {as : List α} {all : List γ}
    (h : joined first f as = .ok all) : ∀ a ∈ as, ∃ list, f a = .ok list := by
  obtain ⟨lists, hlists, -⟩ := bind_eq_ok_iff.mp h
  exact exists_mapM_iff.mp ⟨lists, hlists⟩

theorem joined_eq_filter {first : List γ} {f g : α → Except ε (List γ)} {as : List α}
    {p : γ → Bool} (hfirst : first.filter p = first)
    (h : ∀ a ∈ as, g a = (f a).map (List.filter p)) :
    joined first g as = (joined first f as).map (List.filter p) := by
  unfold joined
  rw [mapM_eq_map h]
  cases as.mapM f with
  | error e => rfl
  | ok lists =>
    show Except.ok (first ++ (lists.map (List.filter p)).flatten) =
      Except.ok ((first ++ lists.flatten).filter p)
    rw [List.filter_append, List.filter_flatten, hfirst]

theorem filter_joined {first : List γ} {f : α → Except ε (List γ)} {as : List α} {p : γ → Bool}
    {kept : α → List γ} (hfirst : first.filter p = [])
    (h : ∀ a ∈ as, ∀ list, f a = .ok list → list.filter p = kept a) {all : List γ}
    (hall : joined first f as = .ok all) : all.filter p = as.flatMap kept := by
  obtain ⟨lists, hlists, hall⟩ := bind_eq_ok_iff.mp hall
  cases hall
  rw [List.filter_append, hfirst, List.nil_append, List.filter_flatten, ← List.flatMap_def]
  exact flatMap_of_mapM hlists h

/-- The last elements of related lists are related. -/
theorem forall₂_getLast? {r : α → β → Prop} {as : List α} {bs : List β} (h : List.Forall₂ r as bs) :
    (as.getLast? = none ∧ bs.getLast? = none) ∨
      ∃ a b, as.getLast? = some a ∧ bs.getLast? = some b ∧ r a b := by
  induction h with
  | nil => exact Or.inl ⟨rfl, rfl⟩
  | @cons a b as bs hab _ ih =>
    rw [List.getLast?_cons, List.getLast?_cons]
    rcases ih with ⟨has, hbs⟩ | ⟨a', b', has, hbs, hr⟩
    · exact Or.inr ⟨a, b, by rw [has]; rfl, by rw [hbs]; rfl, hab⟩
    · exact Or.inr ⟨a', b', by rw [has]; rfl, by rw [hbs]; rfl, hr⟩

/-- What is related to the same is related. -/
theorem forall₂_join {r : α → β → Prop} {s : α → γ → Prop} {p : β → γ → Prop} {as : List α}
    {bs : List β} {cs : List γ} (hjoin : ∀ a b c, r a b → s a c → p b c)
    (hb : List.Forall₂ r as bs) (hc : List.Forall₂ s as cs) : List.Forall₂ p bs cs := by
  induction hb generalizing cs with
  | nil =>
    cases hc
    exact List.Forall₂.nil
  | cons hr _ ih =>
    obtain _ | ⟨hs, hc⟩ := hc
    exact List.Forall₂.cons (hjoin _ _ _ hr hs) (ih hc)

theorem foldlM_keeps {f : β → α → Except ε β} {as : List α} {p : β → Prop}
    (hstep : ∀ a ∈ as, ∀ b b', p b → f b a = .ok b' → p b') {b b' : β} (hb : p b)
    (h : as.foldlM f b = .ok b') : p b' := by
  induction as generalizing b with
  | nil =>
    rw [List.foldlM_nil] at h
    cases h
    exact hb
  | cons a as ih =>
    rw [List.foldlM_cons] at h
    obtain ⟨next, hnext, h⟩ := bind_eq_ok_iff.mp h
    exact ih (fun a' ha' => hstep a' (List.mem_cons_of_mem a ha'))
      (hstep a (List.mem_cons_self ..) b next hb hnext) h

/-! ### Failing alike -/

/-- The programs fail together, with the same failure. -/
def FailAlike (x : Except ε α) (y : Except ε β) : Prop := ∀ e, x = .error e ↔ y = .error e

theorem failAlike_ok (a : α) (b : β) : FailAlike (ε := ε) (.ok a) (.ok b) :=
  fun _ => iff_of_false nofun nofun

theorem failAlike_error (e : ε) : FailAlike (α := α) (β := β) (.error e) (.error e) :=
  fun e' => by rw [Except.error.injEq, Except.error.injEq]

theorem FailAlike.symm {x : Except ε α} {y : Except ε β} (h : FailAlike x y) : FailAlike y x :=
  fun e => (h e).symm

theorem FailAlike.trans {x : Except ε α} {y : Except ε β} {z : Except ε γ} (h : FailAlike x y)
    (h' : FailAlike y z) : FailAlike x z :=
  fun e => (h e).trans (h' e)

/-- A program that goes on with something that cannot fail fails as before. -/
theorem failAlike_map (x : Except ε α) (f : α → β) : FailAlike (do return f (← x)) x := by
  cases x with
  | error e => exact failAlike_error e
  | ok a => exact failAlike_ok (f a) a

theorem FailAlike.exists_ok_iff {x : Except ε α} {y : Except ε β} (h : FailAlike x y) :
    (∃ a, x = .ok a) ↔ ∃ b, y = .ok b := by
  cases x with
  | error e => simp [(h e).mp rfl]
  | ok a =>
    cases y with
    | error e => cases (h e).mpr rfl
    | ok b => simp

theorem FailAlike.bind {x : Except ε α} {y : Except ε β} {f : α → Except ε γ}
    {g : β → Except ε δ} (h : FailAlike x y) (hnext : ∀ a b, FailAlike (f a) (g b)) :
    FailAlike (x >>= f) (y >>= g) := by
  cases x with
  | error e =>
    rw [(h e).mp rfl]
    exact failAlike_error e
  | ok a =>
    obtain ⟨b, rfl⟩ := h.exists_ok_iff.mp ⟨a, rfl⟩
    exact hnext a b

theorem failAlike_mapM_flatMap {f : α → Except ε β} {g : γ → Except ε δ} {k : α → List γ}
    {as : List α} (h : ∀ a ∈ as, FailAlike (f a) ((k a).mapM g)) :
    FailAlike (as.mapM f) ((as.flatMap k).mapM g) := by
  induction as with
  | nil => exact failAlike_ok [] []
  | cons a as ih =>
    obtain ⟨ha, has⟩ := List.forall_mem_cons.mp h
    rw [List.mapM_cons, List.flatMap_cons, List.mapM_append]
    exact ha.bind fun _ _ => (ih has).bind fun _ _ => failAlike_ok _ _

theorem failAlike_foldlM_flatMap {f : β → α → Except ε β} {g : γ → Except ε δ} {k : α → List γ}
    {p : β → Prop} {as : List α} (hkeep : ∀ a ∈ as, ∀ b b', p b → f b a = .ok b' → p b')
    (h : ∀ a ∈ as, ∀ b, p b → FailAlike (f b a) ((k a).mapM g)) {b : β} (hb : p b) :
    FailAlike (as.foldlM f b) ((as.flatMap k).mapM g) := by
  induction as generalizing b with
  | nil => exact failAlike_ok b []
  | cons a as ih =>
    obtain ⟨ha, has⟩ := List.forall_mem_cons.mp h
    obtain ⟨hkeepa, hkeepas⟩ := List.forall_mem_cons.mp hkeep
    rw [List.foldlM_cons, List.flatMap_cons, List.mapM_append]
    cases hnext : f b a with
    | error e =>
      rw [(ha b hb e).mp hnext]
      exact failAlike_error e
    | ok b' =>
      obtain ⟨looked, hlooked⟩ := (ha b hb).exists_ok_iff.mp ⟨b', hnext⟩
      rw [hlooked]
      exact (ih hkeepas has (hkeepa b b' hb hnext)).trans (failAlike_map _ _).symm

end UnitLint
