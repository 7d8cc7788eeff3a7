import Mathlib.Data.List.Basic
import Mathlib.Data.List.GetD
import Mathlib.Logic.Function.Iterate
import Mathlib.Tactic.Ring

/-!
# Streaming Sponges

A sponge as a machine that takes and gives one symbol at a time.

What a streaming implementation must get right is the bookkeeping: how much
of the current block is filled, when the permutation runs, and that none of
this depends on how the caller cut its data. The machine here fixes the
answer in the smallest steps there are. A symbol is mixed in at the current
position, and the step that fills the block permutes. On the way out a symbol
is read at the current position, and the step that starts a block permutes
first. Any implementation that works in larger pieces is then compared with
folds of these steps, and independence of the cuts is a property of folds.

The state, the symbols, the mixing and the permutation are parameters. The
same machine is run over the bytes of an implementation and over the bits of
a standard, and `Refines` relates two such runs when one symbol of the first
stands for several of the second.

## Main definitions

* `chunksExact`, `remainder`: A list cut into pieces of one length.
* `Sponge`: A rate, a state with positions to mix into and read, and a
  permutation.
* `Sponge.absorb`: Mix symbols in, permuting after each full block.
* `Sponge.squeeze`: Read symbols out, permuting before each block.
* `Sponge.mixFrom`, `Sponge.readFrom`: Several consecutive positions.
* `Sponge.Refines`: A symbol of one sponge is a block of symbols of another.

## Theorems

* `absorb_append`: Absorbing piecewise is absorbing the concatenation.
* `absorb_blocks`: Whole blocks are absorbed block by block.
* `squeeze_add`: Squeezing piecewise is squeezing at once.
* `squeeze_within`, `squeeze_block`: The output of one block.
* `Refines.absorb`, `Refines.squeeze`: Related sponges run alike.
-/

namespace Ed301

section Chunks

variable {α : Type*}

/-- Lists of one length with the same entries, whatever the default. -/
theorem ext_getD (d : α) (a b : List α) (hlen : a.length = b.length)
    (h : ∀ i, i < a.length → a.getD i d = b.getD i d) : a = b := by
  refine List.ext_getElem hlen (fun i h1 h2 => ?_)
  have hi := h i h1
  rwa [List.getD_eq_getElem _ _ h1, List.getD_eq_getElem _ _ h2] at hi

/-- The consecutive pieces of length `n`, without what is left over. -/
def chunksExact (n : ℕ) (l : List α) : List (List α) :=
  (List.range (l.length / n)).map fun i => (l.drop (i * n)).take n

/-- What the pieces of length `n` leave over. -/
def remainder (n : ℕ) (l : List α) : List α :=
  l.drop (l.length / n * n)

theorem length_of_mem_chunksExact (n : ℕ) (l c : List α) (h : c ∈ chunksExact n l) :
    c.length = n := by
  unfold chunksExact at h
  rw [List.mem_map] at h
  rcases h with ⟨i, hi, hc⟩
  rw [List.mem_range] at hi
  -- The next multiple of `n` is still inside the list.
  have hend : (i + 1) * n ≤ l.length :=
    (Nat.mul_le_mul_right n hi).trans (Nat.div_mul_le_self _ _)
  rw [Nat.succ_mul] at hend
  rw [← hc, List.length_take, List.length_drop]
  omega

theorem length_remainder (n : ℕ) (l : List α) : (remainder n l).length = l.length % n := by
  have h := Nat.div_add_mod l.length n
  unfold remainder
  rw [List.length_drop, Nat.mul_comm]
  omega

theorem length_remainder_lt (n : ℕ) (l : List α) (h : 0 < n) : (remainder n l).length < n := by
  rw [length_remainder]
  exact Nat.mod_lt _ h

theorem take_eq_flatten_chunks (n : ℕ) (l : List α) :
    ∀ k, ((List.range k).map fun i => (l.drop (i * n)).take n).flatten = l.take (k * n) := by
  intro k
  induction k with
  | zero => simp
  | succ k ih =>
      rw [List.range_succ, List.map_append, List.flatten_append, ih, List.map_singleton,
        List.flatten_singleton, Nat.succ_mul, List.take_add]

/-- Nothing is lost. -/
theorem flatten_chunksExact (n : ℕ) (l : List α) :
    (chunksExact n l).flatten ++ remainder n l = l := by
  unfold chunksExact remainder
  rw [take_eq_flatten_chunks]
  exact List.take_append_drop _ _

/-- A piece in front is the first piece. -/
theorem chunksExact_append (n : ℕ) (c l : List α) (hn : 0 < n) (hc : c.length = n) :
    chunksExact n (c ++ l) = c :: chunksExact n l := by
  have hlen : (c ++ l).length / n = l.length / n + 1 := by
    rw [List.length_append, hc, Nat.add_comm, Nat.add_div_right _ hn]
  unfold chunksExact
  -- The later pieces are those of `l`, each read one piece further on.
  rw [hlen, List.range_succ_eq_map, List.map_cons, List.map_map, Nat.zero_mul, List.drop_zero]
  have hfirst : (c ++ l).take n = c := List.take_left' hc
  rw [hfirst]
  congr 1
  refine List.map_congr_left (fun i _ => ?_)
  have hskip : (i + 1) * n = c.length + i * n := by
    rw [hc]
    ring
  simp only [Function.comp_apply, Nat.succ_eq_add_one]
  rw [hskip, List.drop_length_add_append]

/-- Pieces are recovered from their concatenation. -/
theorem chunksExact_flatten (n : ℕ) (hn : 0 < n) (cs : List (List α)) :
    (∀ c ∈ cs, c.length = n) → chunksExact n cs.flatten = cs := by
  induction cs with
  | nil =>
      intro _
      unfold chunksExact
      rw [List.flatten_nil, List.length_nil, Nat.zero_div]
      rfl
  | cons c cs ih =>
      intro h
      rw [List.flatten_cons, chunksExact_append n c _ hn (h c List.mem_cons_self),
        ih (fun d hd => h d (List.mem_cons_of_mem _ hd))]

end Chunks

/-- A sponge over states `σ` and symbols `β`. -/
structure Sponge (σ β : Type*) where
  rate : ℕ
  rate_pos : 0 < rate
  mix : σ → ℕ → β → σ
  read : σ → ℕ → β
  permute : σ → σ

namespace Sponge

variable {σ β : Type*} (S : Sponge σ β)

/-- Mix symbols in at consecutive positions. -/
def mixFrom : σ → ℕ → List β → σ
  | s, _, [] => s
  | s, i, b :: bs => mixFrom (S.mix s i b) (i + 1) bs

/-- Read `n` consecutive positions. -/
def readFrom (s : σ) (i n : ℕ) : List β :=
  (List.range n).map fun j => S.read s (i + j)

/-- Take in one symbol. The symbol that fills the block permutes. -/
def absorbOne (q : σ × ℕ) (b : β) : σ × ℕ :=
  if q.2 + 1 < S.rate then (S.mix q.1 q.2 b, q.2 + 1)
  else (S.permute (S.mix q.1 q.2 b), 0)

def absorb (q : σ × ℕ) (bs : List β) : σ × ℕ :=
  bs.foldl S.absorbOne q

/-- Take in a whole block. -/
def absorbBlock (s : σ) (block : List β) : σ :=
  S.permute (S.mixFrom s 0 block)

/-- Give out one symbol. The first symbol of a block permutes before it is
    read. -/
def squeezeOne (q : σ × ℕ) : β × (σ × ℕ) :=
  let s := if q.2 = 0 then S.permute q.1 else q.1
  (S.read s q.2, s, if q.2 + 1 < S.rate then q.2 + 1 else 0)

def squeeze : ℕ → σ × ℕ → List β × (σ × ℕ)
  | 0, q => ([], q)
  | n + 1, q =>
    let first := S.squeezeOne q
    let rest := squeeze n first.2
    (first.1 :: rest.1, rest.2)

@[simp] theorem mixFrom_nil (s : σ) (i : ℕ) : S.mixFrom s i [] = s := rfl

@[simp] theorem mixFrom_cons (s : σ) (i : ℕ) (b : β) (bs : List β) :
    S.mixFrom s i (b :: bs) = S.mixFrom (S.mix s i b) (i + 1) bs := rfl

theorem mixFrom_append (as bs : List β) :
    ∀ (s : σ) (i : ℕ),
      S.mixFrom s i (as ++ bs) = S.mixFrom (S.mixFrom s i as) (i + as.length) bs := by
  induction as with
  | nil =>
      intro s i
      simp
  | cons a as ih =>
      intro s i
      rw [List.cons_append, mixFrom_cons, ih, mixFrom_cons, List.length_cons,
        Nat.add_right_comm, Nat.add_assoc i]

@[simp] theorem absorb_nil (q : σ × ℕ) : S.absorb q [] = q := rfl

theorem absorb_append (q : σ × ℕ) (as bs : List β) :
    S.absorb q (as ++ bs) = S.absorb (S.absorb q as) bs :=
  List.foldl_append

/-- Data that stays inside the current block is only mixed in. -/
theorem absorb_of_lt (bs : List β) :
    ∀ (s : σ) (pos : ℕ), pos + bs.length < S.rate →
      S.absorb (s, pos) bs = (S.mixFrom s pos bs, pos + bs.length) := by
  induction bs with
  | nil =>
      intro s pos _
      rfl
  | cons b bs ih =>
      intro s pos h
      rw [List.length_cons] at h
      have hone : S.absorbOne (s, pos) b = (S.mix s pos b, pos + 1) := by
        unfold absorbOne
        rw [if_pos (by omega)]
      rw [absorb, List.foldl_cons, hone]
      rw [← absorb, ih _ _ (by omega), mixFrom_cons, List.length_cons]
      congr 1
      omega

/-- Data that exactly fills the current block is mixed in and permuted. -/
theorem absorb_fill (bs : List β) (s : σ) (pos : ℕ) (hpos : pos < S.rate)
    (h : pos + bs.length = S.rate) :
    S.absorb (s, pos) bs = (S.permute (S.mixFrom s pos bs), 0) := by
  -- Everything but the last symbol stays inside the block.
  rcases List.eq_nil_or_concat bs with hnil | ⟨init, last, hconcat⟩
  · subst hnil
    simp only [List.length_nil, Nat.add_zero] at h
    omega
  · subst hconcat
    rw [List.concat_eq_append, List.length_append, List.length_singleton] at h
    rw [List.concat_eq_append, absorb_append, S.absorb_of_lt init s pos (by omega),
      mixFrom_append]
    unfold absorb absorbOne
    rw [List.foldl_cons, List.foldl_nil, if_neg (by simp only; omega)]
    rfl

theorem absorbOne_position (q : σ × ℕ) (b : β) (h : q.2 < S.rate) :
    (S.absorbOne q b).2 = (q.2 + 1) % S.rate := by
  unfold absorbOne
  by_cases hlt : q.2 + 1 < S.rate
  · rw [if_pos hlt, Nat.mod_eq_of_lt hlt]
  · rw [if_neg hlt, show q.2 + 1 = S.rate by omega, Nat.mod_self]

/-- Whole blocks are absorbed one by one. -/
theorem absorb_blocks (blocks : List (List β)) :
    (∀ block ∈ blocks, block.length = S.rate) →
      ∀ s : σ, S.absorb (s, 0) blocks.flatten = (blocks.foldl S.absorbBlock s, 0) := by
  induction blocks with
  | nil =>
      intro _ s
      rfl
  | cons block blocks ih =>
      intro h s
      have hblock : 0 + block.length = S.rate := by
        rw [Nat.zero_add]
        exact h block List.mem_cons_self
      rw [List.flatten_cons, absorb_append, S.absorb_fill block s 0 S.rate_pos hblock,
        List.foldl_cons]
      exact ih (fun b hb => h b (List.mem_cons_of_mem _ hb)) _

@[simp] theorem length_readFrom (s : σ) (i n : ℕ) : (S.readFrom s i n).length = n := by
  simp [readFrom]

theorem readFrom_succ (s : σ) (i n : ℕ) :
    S.readFrom s i (n + 1) = S.read s i :: S.readFrom s (i + 1) n := by
  unfold readFrom
  rw [List.range_succ_eq_map, List.map_cons, List.map_map]
  congr 1
  refine List.map_congr_left (fun j _ => ?_)
  simp only [Function.comp_apply]
  congr 1
  omega

@[simp] theorem squeeze_zero (q : σ × ℕ) : S.squeeze 0 q = ([], q) := rfl

theorem squeeze_succ (n : ℕ) (q : σ × ℕ) :
    S.squeeze (n + 1) q
      = ((S.squeezeOne q).1 :: (S.squeeze n (S.squeezeOne q).2).1,
          (S.squeeze n (S.squeezeOne q).2).2) := rfl

/-- How the output is cut does not matter. -/
theorem squeeze_add (m n : ℕ) :
    ∀ q : σ × ℕ, S.squeeze (m + n) q
      = ((S.squeeze m q).1 ++ (S.squeeze n (S.squeeze m q).2).1,
          (S.squeeze n (S.squeeze m q).2).2) := by
  induction m with
  | zero =>
      intro q
      simp
  | succ m ih =>
      intro q
      rw [Nat.add_right_comm, squeeze_succ, ih, squeeze_succ, List.cons_append]

/-- Inside a started block, symbols are only read. -/
theorem squeeze_of_lt (n : ℕ) :
    ∀ (s : σ) (pos : ℕ), 0 < pos → pos + n < S.rate →
      S.squeeze n (s, pos) = (S.readFrom s pos n, s, pos + n) := by
  induction n with
  | zero =>
      intro s pos _ _
      rfl
  | succ n ih =>
      intro s pos h0 h
      -- Neither case of the step applies: the block is started and not yet full.
      have hone : S.squeezeOne (s, pos) = (S.read s pos, s, pos + 1) := by
        unfold squeezeOne
        simp only
        rw [if_neg (by omega), if_pos (by omega)]
      have hend : pos + 1 + n = pos + (n + 1) := by omega
      rw [squeeze_succ, hone, ih s (pos + 1) (by omega) (by omega), readFrom_succ, hend]

/-- Reading to the end of a started block. -/
theorem squeeze_fill (n : ℕ) (s : σ) (pos : ℕ) (h0 : 0 < pos) (hpos : pos < S.rate)
    (h : pos + n = S.rate) :
    S.squeeze n (s, pos) = (S.readFrom s pos n, s, 0) := by
  -- Everything but the last symbol stays inside the block.
  obtain ⟨k, hk⟩ : ∃ k, n = k + 1 := ⟨n - 1, by omega⟩
  subst hk
  rw [squeeze_add, S.squeeze_of_lt k s pos h0 (by omega)]
  have hone : S.squeeze 1 (s, pos + k) = ([S.read s (pos + k)], s, 0) := by
    rw [squeeze_succ, squeeze_zero]
    unfold squeezeOne
    simp only
    rw [if_neg (by omega), if_neg (by omega)]
  rw [hone]
  unfold readFrom
  rw [List.range_succ, List.map_append, List.map_singleton]

/-- Starting a block permutes first. -/
theorem squeeze_start (n : ℕ) (s : σ) (hn : 0 < n) (h : n < S.rate) :
    S.squeeze n (s, 0) = (S.readFrom (S.permute s) 0 n, S.permute s, n) := by
  obtain ⟨k, hk⟩ : ∃ k, n = k + 1 := ⟨n - 1, by omega⟩
  subst hk
  have hone : S.squeezeOne (s, 0) = (S.read (S.permute s) 0, S.permute s, 1) := by
    unfold squeezeOne
    simp only [if_true]
    rw [if_pos (by omega)]
  rw [squeeze_succ, hone, S.squeeze_of_lt k (S.permute s) 1 (by omega) (by omega),
    readFrom_succ, Nat.add_comm 1 k]

/-- A whole block permutes and is read from its start. -/
theorem squeeze_block (s : σ) :
    S.squeeze S.rate (s, 0) = (S.readFrom (S.permute s) 0 S.rate, S.permute s, 0) := by
  by_cases hone : S.rate = 1
  · -- The one symbol both starts and fills the block.
    rw [hone, squeeze_succ, squeeze_zero]
    unfold squeezeOne
    simp only [if_true]
    rw [if_neg (by omega), readFrom_succ]
    rfl
  · -- The first symbol starts the block, the others finish it.
    have hpos := S.rate_pos
    have hsplit : S.rate = 1 + (S.rate - 1) := by omega
    have hfirst := S.squeeze_start 1 s (by omega) (by omega)
    have hrest := S.squeeze_fill (S.rate - 1) (S.permute s) 1 (by omega) (by omega) (by omega)
    have hread : S.readFrom (S.permute s) 0 1 ++ S.readFrom (S.permute s) 1 (S.rate - 1)
        = S.readFrom (S.permute s) 0 S.rate := by
      conv_rhs => rw [hsplit, Nat.add_comm 1, readFrom_succ]
      rfl
    conv_lhs => rw [hsplit]
    rw [squeeze_add, hfirst, hrest, hread]

@[simp] theorem length_squeeze (n : ℕ) :
    ∀ q : σ × ℕ, (S.squeeze n q).1.length = n := by
  induction n with
  | zero =>
      intro q
      rfl
  | succ n ih =>
      intro q
      rw [squeeze_succ, List.length_cons, ih]

/-- A shorter output is an initial part of a longer one. -/
theorem squeeze_take (m n : ℕ) (q : σ × ℕ) (h : m ≤ n) :
    (S.squeeze n q).1.take m = (S.squeeze m q).1 := by
  rcases Nat.exists_eq_add_of_le h with ⟨k, hk⟩
  rw [hk, squeeze_add]
  exact List.take_left' (S.length_squeeze m q)

/-- Reading at most to the end of the current block. -/
theorem squeeze_within (n : ℕ) (s : σ) (pos : ℕ) (hn : 0 < n) (h : pos + n ≤ S.rate) :
    S.squeeze n (s, pos)
      = (S.readFrom (if pos = 0 then S.permute s else s) pos n,
          if pos = 0 then S.permute s else s, if pos + n < S.rate then pos + n else 0) := by
  -- Whether the block is started, and then whether the reading fills it.
  by_cases h0 : pos = 0
  · subst h0
    rw [Nat.zero_add] at h ⊢
    rw [if_pos rfl]
    by_cases hlt : n < S.rate
    · rw [S.squeeze_start n s hn hlt, if_pos hlt]
    · have heq : n = S.rate := by omega
      subst heq
      rw [squeeze_block, if_neg hlt]
  · rw [if_neg h0]
    by_cases hlt : pos + n < S.rate
    · rw [S.squeeze_of_lt n s pos (by omega) hlt, if_pos hlt]
    · rw [S.squeeze_fill n s pos (by omega) (by omega) (by omega), if_neg hlt]

/-- The sponge `T` works on the symbols of `S` spelt out in `c` symbols each,
    on states related by `R`. -/
structure Refines {τ γ : Type*} (S : Sponge σ β) (T : Sponge τ γ) (c : ℕ)
    (expand : β → List γ) (R : σ → τ → Prop) : Prop where
  rate_eq : T.rate = c * S.rate
  length_expand : ∀ b, (expand b).length = c
  mix : ∀ s t i b, R s t → i < S.rate → R (S.mix s i b) (T.mixFrom t (c * i) (expand b))
  permute : ∀ s t, R s t → R (S.permute s) (T.permute t)
  read : ∀ s t i, R s t → i < S.rate → expand (S.read s i) = T.readFrom t (c * i) c

section Refines

variable {S} {τ γ : Type*} {T : Sponge τ γ} {c : ℕ} {expand : β → List γ} {R : σ → τ → Prop}

theorem Refines.expansion_pos (h : Refines S T c expand R) : 0 < c := by
  have hpos := T.rate_pos
  rw [h.rate_eq] at hpos
  exact Nat.pos_of_mul_pos_right hpos

/-- Several symbols into the current block. -/
theorem Refines.mixFrom (h : Refines S T c expand R) (bs : List β) :
    ∀ (s : σ) (t : τ) (i : ℕ), R s t → i + bs.length ≤ S.rate →
      R (S.mixFrom s i bs) (T.mixFrom t (c * i) (bs.flatMap expand)) := by
  induction bs with
  | nil =>
      intro s t i hR _
      exact hR
  | cons b bs ih =>
      intro s t i hR hi
      rw [List.length_cons] at hi
      have hone := h.mix s t i b hR (by omega)
      have hrest := ih _ _ (i + 1) hone (by omega)
      have hend : c * i + c = c * (i + 1) := by ring
      rw [List.flatMap_cons, mixFrom_append, h.length_expand, hend]
      exact hrest

/-- One symbol in. -/
theorem Refines.absorbOne (h : Refines S T c expand R) (s : σ) (t : τ) (pos : ℕ) (b : β)
    (hR : R s t) (hpos : pos < S.rate) :
    R (S.absorbOne (s, pos) b).1 (T.absorb (t, c * pos) (expand b)).1 ∧
      (T.absorb (t, c * pos) (expand b)).2 = c * (S.absorbOne (s, pos) b).2 := by
  have hc := h.expansion_pos
  have hmix := h.mix s t pos b hR hpos
  have hend : c * pos + c = c * (pos + 1) := by ring
  unfold Sponge.absorbOne
  by_cases hlt : pos + 1 < S.rate
  · -- The expansion stays inside the block with the symbol.
    have hlt' : c * pos + (expand b).length < T.rate := by
      rw [h.length_expand, h.rate_eq, hend]
      exact Nat.mul_lt_mul_of_pos_left hlt hc
    rw [if_pos hlt, T.absorb_of_lt _ _ _ hlt', h.length_expand, hend]
    exact ⟨hmix, rfl⟩
  · -- The expansion fills the block with the symbol.
    have hfull : c * pos + (expand b).length = T.rate := by
      rw [h.length_expand, h.rate_eq, hend, show pos + 1 = S.rate by omega]
    have hpos' : c * pos < T.rate := by
      rw [h.rate_eq]
      exact Nat.mul_lt_mul_of_pos_left hpos hc
    rw [if_neg hlt, T.absorb_fill _ _ _ hpos' hfull]
    exact ⟨h.permute _ _ hmix, rfl⟩

/-- Related sponges absorb alike. -/
theorem Refines.absorb (h : Refines S T c expand R) (bs : List β) :
    ∀ (s : σ) (t : τ) (pos : ℕ), R s t → pos < S.rate →
      R (S.absorb (s, pos) bs).1 (T.absorb (t, c * pos) (bs.flatMap expand)).1 ∧
        (T.absorb (t, c * pos) (bs.flatMap expand)).2 = c * (S.absorb (s, pos) bs).2 := by
  induction bs with
  | nil =>
      intro s t pos hR _
      exact ⟨hR, rfl⟩
  | cons b bs ih =>
      intro s t pos hR hpos
      have hone := h.absorbOne s t pos b hR hpos
      have hlt : (S.absorbOne (s, pos) b).2 < S.rate := by
        rw [S.absorbOne_position _ _ hpos]
        exact Nat.mod_lt _ S.rate_pos
      have hrest := ih _ _ _ hone.1 hlt
      rw [← hone.2] at hrest
      rw [List.flatMap_cons, absorb_append]
      exact hrest

/-- One symbol out. -/
theorem Refines.squeezeOne (h : Refines S T c expand R) (s : σ) (t : τ) (pos : ℕ)
    (hR : R s t) (hpos : pos < S.rate) :
    (T.squeeze c (t, c * pos)).1 = expand (S.squeezeOne (s, pos)).1 ∧
      R (S.squeezeOne (s, pos)).2.1 (T.squeeze c (t, c * pos)).2.1 ∧
        (T.squeeze c (t, c * pos)).2.2 = c * (S.squeezeOne (s, pos)).2.2 := by
  have hc := h.expansion_pos
  have hend : c * pos + c = c * (pos + 1) := by ring
  have hle : c * pos + c ≤ T.rate := by
    rw [h.rate_eq, hend]
    exact Nat.mul_le_mul_left c hpos
  -- Both permute at the start of a block and nowhere else.
  have hstart : R (if pos = 0 then S.permute s else s)
      (if c * pos = 0 then T.permute t else t) := by
    by_cases h0 : pos = 0
    · rw [if_pos h0, if_pos (by rw [h0, Nat.mul_zero])]
      exact h.permute s t hR
    · rw [if_neg h0, if_neg (Nat.mul_ne_zero hc.ne' h0)]
      exact hR
  have hwrap : (c * pos + c < T.rate) ↔ pos + 1 < S.rate := by
    rw [h.rate_eq, hend]
    exact Nat.mul_lt_mul_left hc
  rw [T.squeeze_within c t (c * pos) hc hle]
  refine ⟨(h.read _ _ pos hstart hpos).symm, hstart, ?_⟩
  unfold Sponge.squeezeOne
  by_cases hlt : pos + 1 < S.rate
  · simp only [if_pos hlt, if_pos (hwrap.mpr hlt)]
    exact hend
  · simp only [if_neg hlt, if_neg (fun hh => hlt (hwrap.mp hh)), Nat.mul_zero]

theorem squeezeOne_position_lt (q : σ × ℕ) : (S.squeezeOne q).2.2 < S.rate := by
  unfold squeezeOne
  simp only
  by_cases hlt : q.2 + 1 < S.rate
  · rw [if_pos hlt]
    exact hlt
  · rw [if_neg hlt]
    exact S.rate_pos

/-- Related sponges squeeze alike. -/
theorem Refines.squeeze (h : Refines S T c expand R) (n : ℕ) :
    ∀ (s : σ) (t : τ) (pos : ℕ), R s t → pos < S.rate →
      (T.squeeze (n * c) (t, c * pos)).1 = (S.squeeze n (s, pos)).1.flatMap expand := by
  induction n with
  | zero =>
      intro s t pos _ _
      rw [Nat.zero_mul]
      rfl
  | succ n ih =>
      intro s t pos hR hpos
      rcases h.squeezeOne s t pos hR hpos with ⟨hout, hstate, hpos'⟩
      have hrest := ih _ _ _ hstate (squeezeOne_position_lt (s, pos))
      rw [← hpos'] at hrest
      rw [Nat.succ_mul, Nat.add_comm, squeeze_add, squeeze_succ, List.flatMap_cons, hout, hrest]

end Refines

end Sponge

end Ed301
