import Mathlib.Data.List.Forall2
import Mathlib.Data.List.Nodup

namespace PauliEstimation

theorem bind_eq_ok_iff {ε α β : Type} {x : Except ε α} {f : α → Except ε β} {b : β} :
    x >>= f = .ok b ↔ ∃ a, x = .ok a ∧ f a = .ok b := by
  cases x with
  | error e => simp [bind, Except.bind]
  | ok a => simp [bind, Except.bind]

theorem exists_bind {ε α β : Type} {x : Except ε α} {f : α → Except ε β} (hx : ∃ a, x = .ok a)
    (hf : ∀ a, x = .ok a → ∃ b, f a = .ok b) : ∃ b, x >>= f = .ok b := by
  obtain ⟨a, ha⟩ := hx
  obtain ⟨b, hb⟩ := hf a ha
  exact ⟨b, bind_eq_ok_iff.mpr ⟨a, ha, hb⟩⟩

theorem bind_of_error {ε α β : Type} {x : Except ε α} {f : α → Except ε β} {e : ε}
    (h : x = .error e) : x >>= f = .error e := by
  rw [h]
  rfl

theorem bind_eq_error_iff {ε α β : Type} {x : Except ε α} {f : α → Except ε β} {e : ε} :
    x >>= f = .error e ↔ x = .error e ∨ ∃ a, x = .ok a ∧ f a = .error e := by
  cases x with
  | error e' => simp [bind, Except.bind]
  | ok a => simp [bind, Except.bind]

theorem map_eq_ok_iff {ε α β : Type} {x : Except ε α} {f : α → β} {b : β} :
    x.map f = .ok b ↔ ∃ a, x = .ok a ∧ f a = b := by
  cases x with
  | error e => simp [Except.map]
  | ok a => simp [Except.map]

theorem map_eq_error_iff {ε α β : Type} {x : Except ε α} {f : α → β} {e : ε} :
    x.map f = .error e ↔ x = .error e := by
  cases x with
  | error e' => simp [Except.map]
  | ok a => simp [Except.map]

theorem mapError_eq_ok_iff {ε ε' α : Type} {x : Except ε α} {f : ε → ε'} {a : α} :
    x.mapError f = .ok a ↔ x = .ok a := by
  cases x with
  | error e => simp [Except.mapError]
  | ok a => simp [Except.mapError]

theorem exists_of_map_toOption {ε α β σ κ : Type} {outcome : Option (Except ε α) × σ × κ}
    {f : α → β} {b : β} (h : (outcome.1.bind Except.toOption).map f = some b) :
    ∃ a s t, outcome = (some (.ok a), s, t) ∧ f a = b := by
  obtain ⟨a, ha, hb⟩ := Option.map_eq_some_iff.mp h
  match outcome, ha with
  | (some (.ok _), s, t), ha => exact ⟨a, s, t, by rw [← Option.some.inj ha], hb⟩

theorem mapM_eq_ok_iff {ε α β : Type} {f : α → Except ε β} {xs : List α} {ys : List β} :
    xs.mapM f = .ok ys ↔ List.Forall₂ (fun x y => f x = .ok y) xs ys := by
  induction xs generalizing ys with
  | nil => cases ys <;> simp [pure, Except.pure]
  | cons x xs ih =>
    rw [List.mapM_cons, bind_eq_ok_iff]
    constructor
    · rintro ⟨y, hy, h⟩
      obtain ⟨rest, hr, h⟩ := bind_eq_ok_iff.mp h
      cases h
      exact List.Forall₂.cons hy (ih.mp hr)
    · intro h
      cases h with
      | @cons _ y _ rest hy hr =>
        exact ⟨y, hy, bind_eq_ok_iff.mpr ⟨rest, ih.mpr hr, rfl⟩⟩

theorem mapM_congr {ε α β : Type} {f g : α → Except ε β} {xs : List α} (h : ∀ x ∈ xs, f x = g x) :
    xs.mapM f = xs.mapM g := by
  induction xs with
  | nil => rfl
  | cons x xs ih =>
    obtain ⟨hx, hrest⟩ := List.forall_mem_cons.mp h
    rw [List.mapM_cons, List.mapM_cons, hx, ih hrest]

theorem mapM_map {ε α β γ : Type} {f : α → Except ε β} {g : β → γ} (xs : List α) :
    xs.mapM (fun x => (f x).map g) = (xs.mapM f).map (List.map g) := by
  induction xs with
  | nil => rfl
  | cons x xs ih =>
    rw [List.mapM_cons, List.mapM_cons, ih]
    cases f x with
    | error e => rfl
    | ok y => cases xs.mapM f <;> rfl

theorem exists_forall₂ {α β : Type} {r : α → β → Prop} {xs : List α}
    (h : ∀ x ∈ xs, ∃ y, r x y) : ∃ ys, List.Forall₂ r xs ys := by
  induction xs with
  | nil => exact ⟨[], .nil⟩
  | cons x xs ih =>
    obtain ⟨⟨y, hy⟩, hrest⟩ := List.forall_mem_cons.mp h
    obtain ⟨ys, hys⟩ := ih hrest
    exact ⟨y :: ys, .cons hy hys⟩

theorem exists_mapM {ε α β : Type} {f : α → Except ε β} {xs : List α}
    (h : ∀ x ∈ xs, ∃ y, f x = .ok y) : ∃ ys, xs.mapM f = .ok ys := by
  obtain ⟨ys, hys⟩ := exists_forall₂ h
  exact ⟨ys, mapM_eq_ok_iff.mpr hys⟩

theorem exists_foldlM {ε α β : Type} {step : β → α → Except ε β} {P : β → Prop} {xs : List α}
    {acc : β} (hacc : P acc)
    (hstep : ∀ b, ∀ x ∈ xs, P b → ∃ next, step b x = .ok next ∧ P next) :
    ∃ out, xs.foldlM step acc = .ok out := by
  induction xs generalizing acc with
  | nil => exact ⟨acc, rfl⟩
  | cons x xs ih =>
    obtain ⟨next, hnext, hP⟩ := hstep acc x List.mem_cons_self hacc
    obtain ⟨out, hout⟩ := ih hP fun b y hy => hstep b y (List.mem_cons_of_mem _ hy)
    exact ⟨out, bind_eq_ok_iff.mpr ⟨next, hnext, hout⟩⟩

/-- What commutes with every step commutes with the whole. -/
theorem map_foldlM {ε α β γ : Type} {step : β → α → Except ε β} {step' : γ → α → Except ε γ}
    {g : β → γ} (h : ∀ b x, (step b x).map g = step' (g b) x) (xs : List α) (acc : β) :
    (xs.foldlM step acc).map g = xs.foldlM step' (g acc) := by
  induction xs generalizing acc with
  | nil => rfl
  | cons x xs ih =>
    rw [List.foldlM_cons, List.foldlM_cons, ← h]
    cases step acc x with
    | error e => rfl
    | ok next => exact ih next

/-- The first failure of a sequence is the failure of the whole. -/
theorem mapM_eq_error {ε α β : Type} {f : α → Except ε β} {before after : List α} {x : α} {e : ε}
    (hb : ∀ y ∈ before, ∃ b, f y = .ok b) (hx : f x = .error e) :
    (before ++ x :: after).mapM f = .error e := by
  induction before with
  | nil => simp [hx, bind, Except.bind]
  | cons y before ih =>
    obtain ⟨⟨b, hb⟩, hrest⟩ := List.forall_mem_cons.mp hb
    rw [List.cons_append, List.mapM_cons, hb, ih hrest]
    rfl

/-- A traversal of translated inputs whose outputs are translated as well. -/
theorem map_mapM_map {m : Type → Type} [Monad m] [LawfulMonad m] {α β γ δ : Type} {f : β → m γ}
    {f' : α → m δ} {g : α → β} {h : γ → δ} (hf : ∀ x, h <$> f (g x) = f' x) (xs : List α) :
    List.map h <$> (xs.map g).mapM f = xs.mapM f' := by
  induction xs with
  | nil => simp
  | cons x xs ih =>
    rw [List.map_cons, List.mapM_cons, List.mapM_cons, ← hf, ← ih]
    simp

/-- What every step of a sequence with a state ensures holds along the whole. -/
theorem forall₂_run_mapM {σ α β : Type} {f : α → StateM σ β} {r : α → β → Prop}
    (h : ∀ x s, r x ((f x).run s).1) (xs : List α) (s : σ) :
    List.Forall₂ r xs ((xs.mapM f).run s).1 := by
  induction xs generalizing s with
  | nil => exact .nil
  | cons x xs ih =>
    rw [List.mapM_cons]
    exact .cons (h x s) (ih _)

theorem run_mapM_append {σ α β : Type} (f : α → StateM σ β) (xs ys : List α) (s : σ) :
    ((xs ++ ys).mapM f).run s =
      (((xs.mapM f).run s).1 ++ ((ys.mapM f).run ((xs.mapM f).run s).2).1,
        ((ys.mapM f).run ((xs.mapM f).run s).2).2) := by
  rw [List.mapM_append]
  rfl

/-- To traverse rows one after the other is to traverse all their entries. -/
theorem run_mapM_flatten {σ α β : Type} (f : α → StateM σ β) (rows : List (List α)) (s : σ) :
    (rows.flatten.mapM f).run s =
      (((rows.mapM fun row => List.mapM f row).run s).1.flatten,
        ((rows.mapM fun row => List.mapM f row).run s).2) := by
  induction rows generalizing s with
  | nil => rfl
  | cons row rest ih =>
    rw [List.flatten_cons, run_mapM_append, ih, List.mapM_cons]
    rfl

theorem exists_first_failure {α : Type} {P : α → Prop} {xs : List α} (h : ∃ x ∈ xs, ¬ P x) :
    ∃ before x after, xs = before ++ x :: after ∧ (∀ y ∈ before, P y) ∧ ¬ P x := by
  induction xs with
  | nil => simp at h
  | cons x xs ih =>
    by_cases hx : P x
    · have hrest : ∃ y ∈ xs, ¬ P y := by simpa [hx] using h
      obtain ⟨before, y, after, rfl, hb, hy⟩ := ih hrest
      exact ⟨x :: before, y, after, rfl, List.forall_mem_cons.mpr ⟨hx, hb⟩, hy⟩
    · exact ⟨[], x, xs, rfl, by simp, hx⟩

theorem forall₂_getElem? {α β : Type} {r : α → β → Prop} {xs : List α} {ys : List β}
    (h : List.Forall₂ r xs ys) {i : Nat} {x : α} (hx : xs[i]? = some x) :
    ∃ y, ys[i]? = some y ∧ r x y := by
  induction h generalizing i with
  | nil => simp at hx
  | @cons a b as bs hab _ ih =>
    cases i with
    | zero =>
      obtain rfl : a = x := by simpa using hx
      exact ⟨b, by simp, hab⟩
    | succ i => simpa using ih (by simpa using hx)

theorem map_eq_map_of_forall₂ {α β γ : Type} {r : α → β → Prop} {f : α → γ} {g : β → γ}
    {xs : List α} {ys : List β} (h : List.Forall₂ r xs ys) (hr : ∀ x y, r x y → f x = g y) :
    xs.map f = ys.map g := by
  rw [← List.forall₂_eq_eq_eq, List.forall₂_map_left_iff, List.forall₂_map_right_iff]
  exact h.imp hr

theorem forall₂_exists_of_mem {α β : Type} {r : α → β → Prop} {xs : List α} {ys : List β} {y : β}
    (h : List.Forall₂ r xs ys) (hy : y ∈ ys) : ∃ x ∈ xs, r x y := by
  obtain ⟨i, hi⟩ := List.mem_iff_getElem?.mp hy
  obtain ⟨x, hx, hxy⟩ := forall₂_getElem? h.flip hi
  exact ⟨x, List.mem_of_getElem? hx, hxy⟩

/-- A relation between lists relates the parts before an entry, and the entry itself. -/
theorem forall₂_append_cons {α β : Type} {r : α → β → Prop} {before after : List α} {x : α}
    {zs : List β} (h : List.Forall₂ r (before ++ x :: after) zs) :
    ∃ before' y after', zs = before' ++ y :: after' ∧ List.Forall₂ r before before' ∧ r x y := by
  induction before generalizing zs with
  | nil =>
    obtain ⟨y, after', hxy, _, rfl⟩ := List.forall₂_cons_left_iff.mp h
    exact ⟨[], y, after', rfl, .nil, hxy⟩
  | cons a before ih =>
    obtain ⟨z, rest, haz, hrest, rfl⟩ := List.forall₂_cons_left_iff.mp h
    obtain ⟨before', y, after', rfl, hbefore, hxy⟩ := ih hrest
    exact ⟨z :: before', y, after', rfl, .cons haz hbefore, hxy⟩

/-- What holds between the entries at every position holds of every entry of the second list. -/
theorem exists_getElem?_of_mem {α β : Type} {P : Nat → α → β → Prop} {xs : List α} {ys : List β}
    (hlen : ys.length = xs.length)
    (h : ∀ k x, xs[k]? = some x → ∃ y, ys[k]? = some y ∧ P k x y) {y : β} (hy : y ∈ ys) :
    ∃ k x, xs[k]? = some x ∧ P k x y := by
  obtain ⟨k, hk⟩ := List.mem_iff_getElem?.mp hy
  have hlt : k < xs.length := hlen ▸ (List.getElem?_eq_some_iff.mp hk).1
  obtain ⟨z, hz, hp⟩ := h k _ (List.getElem?_eq_getElem hlt)
  obtain rfl : y = z := Option.some.inj (hk.symm.trans hz)
  exact ⟨k, _, List.getElem?_eq_getElem hlt, hp⟩

/-- In blocks of one length, position `i * size + j` is position `j` of block `i`. -/
theorem getElem?_flatten_blocks {α : Type} {blocks : List (List α)} {size i j : Nat}
    {block : List α} (hs : ∀ b ∈ blocks, b.length = size) (hb : blocks[i]? = some block)
    (hj : j < size) : blocks.flatten[i * size + j]? = block[j]? := by
  induction blocks generalizing i with
  | nil => simp at hb
  | cons b blocks ih =>
    have hlen : b.length = size := hs b (by simp)
    rw [List.flatten_cons]
    cases i with
    | zero =>
      obtain rfl : b = block := by simpa using hb
      rw [Nat.zero_mul, Nat.zero_add, List.getElem?_append_left (by omega)]
    | succ i =>
      have hpos : (i + 1) * size + j - b.length = i * size + j := by
        rw [Nat.succ_mul]
        omega
      rw [List.getElem?_append_right (by rw [Nat.succ_mul]; omega), hpos]
      exact ih (fun b hb => hs b (List.mem_cons_of_mem _ hb)) (by simpa using hb)

theorem length_flatten_blocks {α : Type} {blocks : List (List α)} {size : Nat}
    (hs : ∀ b ∈ blocks, b.length = size) : blocks.flatten.length = blocks.length * size := by
  induction blocks with
  | nil => simp
  | cons b blocks ih =>
    rw [List.flatten_cons, List.length_append, hs b (by simp),
      ih fun b hb => hs b (List.mem_cons_of_mem _ hb), List.length_cons, Nat.succ_mul, Nat.add_comm]

theorem idxOf?_of_nodup {α : Type} [DecidableEq α] {xs : List α} (h : xs.Nodup) {k : Nat} {x : α}
    (hk : xs[k]? = some x) : xs.idxOf? x = some k := by
  obtain ⟨hlt, rfl⟩ := List.getElem?_eq_some_iff.mp hk
  refine List.idxOf?_eq_some_iff.mpr ⟨hlt, rfl, ?_⟩
  intro j hj he
  have hpos := h.getElem_inj_iff.mp he
  omega

theorem lookup_of_mem {α : Type} {k : Nat} {a : α} {xs : List (Nat × α)}
    (hn : (xs.map Prod.fst).Nodup) (h : (k, a) ∈ xs) : xs.lookup k = some a := by
  induction xs with
  | nil => simp at h
  | cons x rest ih =>
    obtain ⟨hx, hrest⟩ := List.nodup_cons.mp hn
    rcases List.mem_cons.mp h with rfl | hm
    · exact List.lookup_cons_self
    · have hne : k ≠ x.1 := fun he => hx (he ▸ List.mem_map_of_mem hm)
      rw [List.lookup_cons, beq_eq_false_iff_ne.mpr hne]
      exact ih hrest hm

theorem lookup_eq_none_of_notMem {α : Type} {k : Nat} {xs : List (Nat × α)}
    (h : k ∉ xs.map Prod.fst) : xs.lookup k = none := by
  apply List.lookup_eq_none_iff.mpr
  intro x hx
  have hne : k ≠ x.1 := fun he => h (List.mem_map.mpr ⟨x, hx, he.symm⟩)
  simpa using hne

end PauliEstimation
