import ScoutComputer.Data.MurmurHash
import ScoutComputer.Lib.Words

/-!
# Which changes `murmurHash` notices

A byte of 0x80 and above is sign-extended before it is or-ed into the word of a block,
where it hides the bytes above it. The shifts are arithmetic, so that mixing a word
merges it with its complement, and so do two of the three last steps. The combine steps
and the tail are bijections, so what the last steps get differs unless mixing has merged the
two blocks (`combined_inj_iff`).

What the last steps merge depends on all of the vector. Two things can be said without
running it. The combine steps keep the lowest bits in which two words agree, and where the
fourteen lowest agree nothing is merged. And for the last block the xor of what the last
steps get is that of the two mixed words, which decides in nearly all cases. Of the others
no more than three changes at one place go unnoticed.
-/

namespace ScoutComputer

open Words

/-! ## The word of a block -/

/-- Up to the first byte of 0x80 and above. -/
def seen : List Byte → List Byte
  | [] => []
  | c :: cs => if c < 128 then c :: seen cs else [c]

/-- The word of a block, least significant byte first. -/
def orWord : List Byte → BitVec 32
  | [] => 0#32
  | c :: cs => charToInt c ||| orWord cs <<< 8

/-- The word of the tail. -/
def xorWord : List Byte → BitVec 32
  | [] => 0#32
  | c :: cs => charToInt c ^^^ xorWord cs <<< 8

theorem charToInt_toNat (c : Byte) :
    (charToInt c).toNat = if c < 128 then c.toNat else c.toNat + 4294967040 := by
  have hmsb : c.toBitVec.msb = decide (128 ≤ c.toNat) := BitVec.msb_eq_decide _
  have hlt : c.toNat < 256 := c.toNat_lt
  have hsign : c < 128 ↔ c.toNat < 128 := UInt8.lt_iff_toNat_lt
  unfold charToInt
  rw [BitVec.toNat_signExtend, hmsb, BitVec.toNat_setWidth, UInt8.toNat_toBitVec,
    Nat.mod_eq_of_lt (by omega)]
  by_cases h : c.toNat < 128
  · rw [if_pos (hsign.mpr h), decide_eq_false (by omega)]
    rfl
  · rw [if_neg (fun hc => h (hsign.mp hc)), decide_eq_true (by omega)]
    rfl

theorem shl_toNat (x : BitVec 32) : (x <<< 8).toNat = x.toNat % 16777216 * 256 := by
  rw [BitVec.toNat_shiftLeft, Nat.shiftLeft_eq]
  omega

/-- What is left of a congruence when a common byte is dropped from below. -/
theorem shifted_mod {n c x y : Nat} (hn : n ≤ 3)
    (h : (c + x % 16777216 * 256) % 256 ^ (n + 1) = (c + y % 16777216 * 256) % 256 ^ (n + 1)) :
    x % 256 ^ n = y % 256 ^ n := by
  have hcases : n = 0 ∨ n = 1 ∨ n = 2 ∨ n = 3 := by omega
  rcases hcases with rfl | rfl | rfl | rfl <;> omega

/-- A byte below 0x80 leaves the bytes above it as they are. -/
theorem orWord_cons_low {c : Byte} (hc : c < 128) (cs : List Byte) :
    (orWord (c :: cs)).toNat = c.toNat + (orWord cs).toNat % 16777216 * 256 := by
  have hlt : c.toNat < 2 ^ 8 := c.toNat_lt
  have hor := Nat.two_pow_add_eq_or_of_lt hlt ((orWord cs).toNat % 16777216)
  rw [orWord, BitVec.toNat_or, charToInt_toNat, if_pos hc, shl_toNat, Nat.or_comm, Nat.mul_comm]
  exact hor.symm.trans (by omega)

/-- Any other byte hides them. -/
theorem orWord_cons_high {c : Byte} (hc : ¬ c < 128) (cs : List Byte) :
    orWord (c :: cs) = charToInt c := by
  rw [orWord]
  refine BitVec.eq_of_getLsbD_eq fun i hi => ?_
  rw [BitVec.getLsbD_or, BitVec.getLsbD_shiftLeft]
  by_cases h8 : i < 8
  · simp [h8]
  · have hsign : c.toBitVec.msb = true := by
      rw [BitVec.msb_eq_decide]
      refine decide_eq_true ?_
      have hlow : c < 128 ↔ c.toNat < 128 := UInt8.lt_iff_toNat_lt
      have hn : ¬ c.toNat < 128 := fun h => hc (hlow.mpr h)
      exact Nat.le_of_not_lt hn
    have hbit : (charToInt c).getLsbD i = true := by
      unfold charToInt
      rw [BitVec.getLsbD_signExtend, if_neg h8, hsign]
      simp [hi]
    rw [hbit, Bool.true_or]

theorem orWord_seen (cs : List Byte) : orWord (seen cs) = orWord cs := by
  induction cs with
  | nil => rfl
  | cons c cs ih =>
      rw [seen]
      by_cases hc : c < 128
      · rw [if_pos hc, orWord, ih, orWord]
      · rw [if_neg hc, orWord_cons_high hc, orWord_cons_high hc]

theorem orWord_low_byte (c : Byte) (cs : List Byte) : (orWord (c :: cs)).toNat % 256 = c.toNat := by
  have hlt : c.toNat < 256 := c.toNat_lt
  by_cases hc : c < 128
  · rw [orWord_cons_low hc]
    omega
  · rw [orWord_cons_high hc, charToInt_toNat, if_neg hc]
    omega

/-- Words that agree agree in their lowest byte. -/
theorem low_byte_eq {a b n : Nat} (h : a % 256 ^ (n + 1) = b % 256 ^ (n + 1)) :
    a % 256 = b % 256 := by
  have hdvd : 256 ∣ 256 ^ (n + 1) := ⟨256 ^ n, Nat.pow_succ'⟩
  rw [← Nat.mod_mod_of_dvd _ hdvd, h, Nat.mod_mod_of_dvd _ hdvd]

/-- The low bytes of a word are those of the block, as far as they are not hidden. -/
theorem seen_of_orWord {cs ds : List Byte} (hlen : cs.length = ds.length)
    (hle : cs.length ≤ 4)
    (h : (orWord cs).toNat % 256 ^ cs.length = (orWord ds).toNat % 256 ^ cs.length) :
    seen cs = seen ds := by
  induction cs generalizing ds with
  | nil =>
      cases ds with
      | nil => rfl
      | cons d ds => exact absurd hlen (by simp)
  | cons c cs ih =>
      cases ds with
      | nil => exact absurd hlen (by simp)
      | cons d ds =>
          rw [List.length_cons, List.length_cons] at hlen
          rw [List.length_cons] at hle h
          have hlow := low_byte_eq h
          rw [orWord_low_byte, orWord_low_byte] at hlow
          have hcd : c = d := UInt8.toNat_inj.mp hlow
          subst hcd
          rw [seen, seen]
          by_cases hc : c < 128
          · rw [if_pos hc, if_pos hc]
            refine congrArg _ (ih (by omega) (by omega) ?_)
            rw [orWord_cons_low hc, orWord_cons_low hc] at h
            exact shifted_mod (by omega) h
          · rw [if_neg hc, if_neg hc]

theorem orWord_eq_iff {cs ds : List Byte} (hc : cs.length = 4) (hd : ds.length = 4) :
    orWord cs = orWord ds ↔ seen cs = seen ds := by
  constructor
  · intro h
    exact seen_of_orWord (by omega) (by omega) (by rw [h])
  · intro h
    rw [← orWord_seen cs, h, orWord_seen]

theorem xorWord_cons_toNat (c : Byte) (cs : List Byte) :
    (xorWord (c :: cs)).toNat = (charToInt c).toNat ^^^ (xorWord cs).toNat % 16777216 * 256 := by
  rw [xorWord, BitVec.toNat_xor, shl_toNat]

theorem xorWord_low_byte (c : Byte) (cs : List Byte) :
    (xorWord (c :: cs)).toNat % 256 = c.toNat := by
  have hlt : c.toNat < 256 := c.toNat_lt
  have hword := charToInt_toNat c
  have hmod := Nat.xor_mod_two_pow (a := (charToInt c).toNat)
    (b := (xorWord cs).toNat % 16777216 * 256) (n := 8)
  have hzero : (xorWord cs).toNat % 16777216 * 256 % 2 ^ 8 = 0 := by omega
  have hbyte : (charToInt c).toNat % 2 ^ 8 = c.toNat := by
    split at hword <;> omega
  rw [hzero, hbyte, Nat.xor_zero] at hmod
  rw [xorWord_cons_toNat]
  exact hmod

/-- Nothing is hidden in the tail. -/
theorem eq_of_xorWord {cs ds : List Byte} (hlen : cs.length = ds.length) (hle : cs.length ≤ 4)
    (h : (xorWord cs).toNat % 256 ^ cs.length = (xorWord ds).toNat % 256 ^ cs.length) :
    cs = ds := by
  induction cs generalizing ds with
  | nil => exact (List.length_eq_zero_iff.mp hlen.symm).symm
  | cons c cs ih =>
      cases ds with
      | nil => exact absurd hlen (by simp)
      | cons d ds =>
          rw [List.length_cons, List.length_cons] at hlen
          rw [List.length_cons] at hle h
          have hlow := low_byte_eq h
          rw [xorWord_low_byte, xorWord_low_byte] at hlow
          have hcd : c = d := UInt8.toNat_inj.mp hlow
          subst hcd
          refine congrArg _ (ih (by omega) (by omega) (shifted_mod (c := 0) (by omega) ?_))
          have hpow : 256 ^ (cs.length + 1) = 2 ^ (8 * (cs.length + 1)) := by rw [Nat.pow_mul]
          rw [xorWord_cons_toNat, xorWord_cons_toNat, hpow, Nat.xor_mod_two_pow,
            Nat.xor_mod_two_pow] at h
          rw [hpow, Nat.zero_add, Nat.zero_add]
          have hcancel := congrArg ((charToInt c).toNat % 2 ^ (8 * (cs.length + 1)) ^^^ ·) h
          simpa only [← Nat.xor_assoc, Nat.xor_self, Nat.zero_xor] using hcancel

/-! ## The steps -/

/-- The inverse of the multiplier, negated: the sum of two words that the mix merges. -/
def mergedSum : BitVec 32 := 0x1a64e643#32

theorem multVal_mul_inv : multVal * -mergedSum = 1#32 := by decide +kernel

/-- Multiplication, shift and multiplication: two words merge when they have the sum above. -/
theorem mix_inj_iff {k : Nat} (hk : 0 < k) {x y : BitVec 32} :
    shiftMix k (x * multVal) = shiftMix k (y * multVal) ↔ x = y ∨ x + y = mergedSum := by
  rw [shiftMix_inj_iff hk, mul_left_inj_of_inv multVal_mul_inv,
    mul_eq_not_mul_iff multVal_mul_inv, BitVec.neg_neg]

theorem blockWord_eq (a b c d : Byte) :
    charToInt a ||| charToInt b <<< 8 ||| charToInt c <<< 16 ||| charToInt d <<< 24 =
      orWord [a, b, c, d] := by
  simp only [orWord, BitVec.shiftLeft_or_distrib, ← BitVec.shiftLeft_add, BitVec.or_assoc]
  simp

theorem mixBlock_eq (a b c d : Byte) :
    mixBlock a b c d = shiftMix rotate (orWord [a, b, c, d] * multVal) * multVal := by
  unfold mixBlock shiftMix
  rw [blockWord_eq]

theorem mixBlock_inj_iff {a b c d a' b' c' d' : Byte} :
    mixBlock a b c d = mixBlock a' b' c' d' ↔
      seen [a, b, c, d] = seen [a', b', c', d'] ∨
        orWord [a, b, c, d] + orWord [a', b', c', d'] = mergedSum := by
  rw [mixBlock_eq, mixBlock_eq, mul_left_inj_of_inv multVal_mul_inv, mix_inj_iff (by decide),
    orWord_eq_iff rfl rfl]

/-- One combine step is a bijection of the hash, and of the mixed block. -/
theorem combine_inj_left {h h' x : BitVec 32} :
    h * multVal ^^^ x = h' * multVal ^^^ x ↔ h = h' := by
  rw [BitVec.xor_left_inj, mul_left_inj_of_inv multVal_mul_inv]

/-! ## The loop and the tail -/

theorem murmurLoop_cons (hash : BitVec 32) (a b c d : Byte) (data : List Byte) :
    murmurLoop hash (a :: b :: c :: d :: data) =
      murmurLoop (hash * multVal ^^^ mixBlock a b c d) data := rfl

theorem murmurLoop_short {hash : BitVec 32} {data : List Byte} (h : data.length < 4) :
    murmurLoop hash data = (hash, data) := by
  unfold murmurLoop
  split
  · simp only [List.length_cons] at h
    omega
  · rfl

/-- A list of whole blocks, one after the other. -/
theorem blocks_induction {P : List Byte → Prop} (nil : P [])
    (cons : ∀ a b c d data, P data → P (a :: b :: c :: d :: data)) :
    ∀ data, data.length % 4 = 0 → P data
  | [], _ => nil
  | [_], h => absurd h (by simp)
  | [_, _], h => absurd h (by simp)
  | [_, _, _], h => absurd h (by simp)
  | a :: b :: c :: d :: data, h => by
      refine cons a b c d data (blocks_induction nil cons data ?_)
      simp only [List.length_cons] at h
      omega

/-- Whole blocks come before the rest. -/
theorem murmurLoop_append {pre : List Byte} (h : pre.length % 4 = 0) (hash : BitVec 32)
    (rest : List Byte) :
    murmurLoop hash (pre ++ rest) = murmurLoop (murmurLoop hash pre).1 rest := by
  refine blocks_induction (P := fun pre => ∀ hash, murmurLoop hash (pre ++ rest) =
    murmurLoop (murmurLoop hash pre).1 rest) ?_ ?_ pre h hash
  · intro hash
    rfl
  · intro a b c d data ih hash
    exact ih _

/-- What the loop leaves to the tail is too short for a block, and does not depend on the hash. -/
theorem murmurLoop_rest (data : List Byte) :
    ∃ rest, rest.length < 4 ∧ ∀ hash, (murmurLoop hash data).2 = rest := by
  match data with
  | [] => exact ⟨_, by decide, fun _ => rfl⟩
  | [a] => exact ⟨_, by simp, fun _ => rfl⟩
  | [a, b] => exact ⟨_, by simp, fun _ => rfl⟩
  | [a, b, c] => exact ⟨_, by simp, fun _ => rfl⟩
  | a :: b :: c :: d :: data =>
      obtain ⟨rest, hlen, hrest⟩ := murmurLoop_rest data
      exact ⟨rest, hlen, fun hash => hrest _⟩

theorem murmurLoop_inj {data : List Byte} {h h' : BitVec 32} :
    (murmurLoop h data).1 = (murmurLoop h' data).1 ↔ h = h' := by
  match data with
  | [] => exact Iff.rfl
  | [a] => exact Iff.rfl
  | [a, b] => exact Iff.rfl
  | [a, b, c] => exact Iff.rfl
  | a :: b :: c :: d :: data =>
      rw [murmurLoop_cons, murmurLoop_cons, murmurLoop_inj, combine_inj_left]

theorem murmurTail_eq {rest : List Byte} (hne : rest ≠ []) (hlen : rest.length < 4)
    (hash : BitVec 32) : murmurTail hash rest = (hash ^^^ xorWord rest) * multVal := by
  match rest with
  | [] => exact absurd rfl hne
  | [a] => simp [murmurTail, xorWord]
  | [a, b] =>
      simp only [murmurTail, xorWord, BitVec.zero_shiftLeft, BitVec.xor_zero]
      ac_rfl
  | [a, b, c] =>
      simp only [murmurTail, xorWord, BitVec.zero_shiftLeft, BitVec.xor_zero,
        BitVec.shiftLeft_xor_distrib, ← BitVec.shiftLeft_add, Nat.reduceAdd]
      generalize charToInt b <<< 8 = y
      generalize charToInt c <<< 16 = z
      ac_rfl
  | _ :: _ :: _ :: _ :: data =>
      rw [List.length_cons, List.length_cons, List.length_cons, List.length_cons] at hlen
      omega

theorem murmurTail_inj {rest : List Byte} (hlen : rest.length < 4) {h h' : BitVec 32} :
    murmurTail h rest = murmurTail h' rest ↔ h = h' := by
  cases hr : rest with
  | nil => exact Iff.rfl
  | cons c cs =>
      rw [← hr, murmurTail_eq (by rw [hr]; simp) hlen, murmurTail_eq (by rw [hr]; simp) hlen,
        mul_left_inj_of_inv multVal_mul_inv, BitVec.xor_left_inj]

/-! ## The whole hash -/

/-- The blocks and the tail of a vector, combined as the hash does it. -/
def combined (data : List Byte) : BitVec 32 :=
  let (hash, rest) := murmurLoop (1138#32 ^^^ BitVec.ofNat 32 data.length) data
  murmurTail hash rest

/-- The last three steps. -/
def finish (hash : BitVec 32) : BitVec 32 := shiftMix 15 (shiftMix 13 hash * multVal)

theorem murmurHash_eq {data : List Byte} (h : data.length < 2 ^ 31) :
    murmurHash data = finish (combined data) := by
  have hsize : toInt32 data.length = data.length := Int.bmod_eq_of_le (by omega) (by omega)
  -- unfolded without reducing, so that nothing has to evaluate the size
  have hdef : murmurHash = murmurHash := rfl
  conv_rhs at hdef => delta murmurHash
  rw [congrFun hdef data]
  clear hdef
  generalize toInt32 data.length = size at hsize
  subst hsize
  unfold combined
  dsimp only
  rw [Int.toNat_natCast, List.take_length, BitVec.ofInt_natCast]
  rcases murmurLoop (1138#32 ^^^ BitVec.ofNat 32 data.length) data with ⟨hash, rest⟩
  rfl

/-- The last steps merge complements, and words that the first of them gives the sum above. -/
theorem finish_inj_iff {x y : BitVec 32} :
    finish x = finish y ↔
      x = y ∨ x = ~~~y ∨ shiftMix 13 x + shiftMix 13 y = mergedSum := by
  unfold finish
  rw [mix_inj_iff (by decide), shiftMix_inj_iff (by decide), or_assoc]

/-- `u` and `v` are at the same place, both a block of four bytes or both the tail. -/
inductive SamePlace (u v post : List Byte) : Prop where
  | block (hu : u.length = 4) (hv : v.length = 4)
  | tail (hpost : post = []) (hpos : 0 < u.length) (hu : u.length < 4) (hv : v.length = u.length)

/-- Two blocks that mixing merges. -/
def Merged (u v : List Byte) : Prop :=
  u.length = 4 ∧ (seen u = seen v ∨ orWord u + orWord v = mergedSum)

theorem length_four {u : List Byte} (h : u.length = 4) : ∃ a b c d, u = [a, b, c, d] := by
  match u with
  | [a, b, c, d] => exact ⟨a, b, c, d, rfl⟩
  | [] => simp at h
  | [_] => simp at h
  | [_, _] => simp at h
  | [_, _, _] => simp at h
  | _ :: _ :: _ :: _ :: _ :: _ => simp at h

/-- Up to the last steps, vectors that differ at one place are merged at that place only. -/
theorem combined_inj_iff {pre u v post : List Byte} (hpre : pre.length % 4 = 0)
    (h : SamePlace u v post) (hne : u ≠ v) :
    combined (pre ++ (u ++ post)) = combined (pre ++ (v ++ post)) ↔ Merged u v := by
  have hlen : (pre ++ (v ++ post)).length = (pre ++ (u ++ post)).length := by
    cases h with
    | block hu hv => simp [hu, hv]
    | tail _ _ _ hv => simp [hv]
  unfold combined
  dsimp only
  rw [hlen, murmurLoop_append hpre, murmurLoop_append hpre]
  generalize (murmurLoop (1138#32 ^^^ BitVec.ofNat 32 (pre ++ (u ++ post)).length) pre).1 = hash
  unfold Merged
  cases h with
  | block hu hv =>
      obtain ⟨a, b, c, d, rfl⟩ := length_four hu
      obtain ⟨a', b', c', d', rfl⟩ := length_four hv
      obtain ⟨rest, hrest, hloop⟩ := murmurLoop_rest post
      simp only [List.cons_append, List.nil_append, murmurLoop_cons, hloop]
      rw [murmurTail_inj hrest, murmurLoop_inj, BitVec.xor_right_inj, mixBlock_inj_iff]
      exact ⟨fun h => ⟨rfl, h⟩, And.right⟩
  | tail hpost hpos hu hv =>
      subst hpost
      rw [List.append_nil, List.append_nil, murmurLoop_short hu, murmurLoop_short (hv ▸ hu)]
      have hnu : u ≠ [] := List.ne_nil_of_length_pos hpos
      have hnv : v ≠ [] := List.ne_nil_of_length_pos (hv ▸ hpos)
      rw [murmurTail_eq hnu hu, murmurTail_eq hnv (hv ▸ hu), mul_left_inj_of_inv multVal_mul_inv,
        BitVec.xor_right_inj]
      constructor
      · intro heq
        exact absurd (eq_of_xorWord hv.symm (by omega) (by rw [heq])) hne
      · intro h
        omega

/-! ## The last steps -/

/-- Words that agree in their fourteen lowest bits are not merged. -/
theorem finish_ne_of_low {x y : BitVec 32} (hne : x ≠ y)
    (h : x.setWidth 14 = y.setWidth 14) : finish x ≠ finish y := by
  intro heq
  rcases finish_inj_iff.mp heq with heq | heq | hsum
  · exact hne heq
  · -- complements differ in the lowest bit already
    rw [heq] at h
    have hbit := congrArg (fun z => z.getLsbD 0) h
    simp at hbit
  · exact add_ne_of_odd (getLsbD_zero_shiftMix (by decide) h) (by decide) hsum

/-- Nor are words whose difference leaves no room for the carries the sum needs. -/
theorem finish_ne_of_carries {x y : BitVec 32} (hne : x ≠ y)
    (hnot : x ^^^ y ≠ BitVec.allOnes 32)
    (h : (mergedSum - shiftMix 13 (x ^^^ y)) &&& (shiftMix 13 (x ^^^ y) <<< 1 ||| 1#32) ≠ 0#32) :
    finish x ≠ finish y := by
  intro heq
  rcases finish_inj_iff.mp heq with heq | heq | hsum
  · exact hne heq
  · exact hnot (xor_eq_allOnes.mpr heq)
  · refine h ?_
    rw [← hsum, shiftMix_xor]
    exact carries_disjoint _ _

/-- The last steps merge four words at most. -/
theorem length_le_of_finish {y : BitVec 32} {xs : List (BitVec 32)} (hn : xs.Nodup)
    (h : ∀ x ∈ xs, finish x = finish y) : xs.length ≤ 4 := by
  by_cases hsum : ∃ a ∈ xs, shiftMix 13 a + shiftMix 13 y = mergedSum
  · obtain ⟨a, -, ha⟩ := hsum
    have hsub : xs ⊆ [y, ~~~y, a, ~~~a] := by
      intro x hx
      rcases finish_inj_iff.mp (h x hx) with rfl | rfl | hx
      · simp
      · simp
      · have hmix : shiftMix 13 x = shiftMix 13 a := by
          rw [← ha] at hx
          exact (BitVec.add_left_inj _).mp hx
        rcases (shiftMix_inj_iff (by decide)).mp hmix with rfl | rfl
        · simp
        · simp
    exact hn.length_le_of_subset hsub
  · have hsub : xs ⊆ [y, ~~~y] := by
      intro x hx
      rcases finish_inj_iff.mp (h x hx) with rfl | rfl | hmerged
      · simp
      · simp
      · exact absurd ⟨x, hx, hmerged⟩ hsum
    exact (hn.length_le_of_subset hsub).trans (Nat.le_add_left 2 2)

/-! ## What a place contributes -/

/-- The word of a place: that of a block is mixed. -/
def placeWord (u : List Byte) : BitVec 32 :=
  if u.length = 4 then shiftMix rotate (orWord u * multVal) * multVal else xorWord u

theorem mixBlock_eq_placeWord (a b c d : Byte) : mixBlock a b c d = placeWord [a, b, c, d] := by
  have hfour : [a, b, c, d].length = 4 := rfl
  rw [placeWord, if_pos hfour, mixBlock_eq]

section
variable {k : Nat}

theorem setWidth_combine (hk : k ≤ 32) {h h' x x' : BitVec 32}
    (hh : h.setWidth k = h'.setWidth k) (hx : x.setWidth k = x'.setWidth k) :
    (h * multVal ^^^ x).setWidth k = (h' * multVal ^^^ x').setWidth k := by
  rw [BitVec.setWidth_xor, BitVec.setWidth_xor, BitVec.setWidth_mul _ _ hk,
    BitVec.setWidth_mul _ _ hk, hh, hx]

/-- Neither the loop nor the tail spreads a difference to lower bits. -/
theorem setWidth_murmurLoop (hk : k ≤ 32) {data : List Byte} {h h' : BitVec 32}
    (hh : h.setWidth k = h'.setWidth k) :
    (murmurLoop h data).1.setWidth k = (murmurLoop h' data).1.setWidth k := by
  match data with
  | [] => exact hh
  | [a] => exact hh
  | [a, b] => exact hh
  | [a, b, c] => exact hh
  | a :: b :: c :: d :: data =>
      rw [murmurLoop_cons, murmurLoop_cons]
      exact setWidth_murmurLoop hk (setWidth_combine hk hh rfl)

theorem setWidth_murmurTail (hk : k ≤ 32) {rest rest' : List Byte} (hlen : rest.length < 4)
    (hlen' : rest'.length = rest.length) {h h' : BitVec 32} (hh : h.setWidth k = h'.setWidth k)
    (hrest : (xorWord rest).setWidth k = (xorWord rest').setWidth k) :
    (murmurTail h rest).setWidth k = (murmurTail h' rest').setWidth k := by
  cases hr : rest with
  | nil =>
      have hr' : rest' = [] := by
        rw [hr] at hlen'
        exact List.length_eq_zero_iff.mp hlen'
      rw [hr']
      exact hh
  | cons c cs =>
      have hne : rest ≠ [] := by simp [hr]
      have hne' : rest' ≠ [] := by
        rintro rfl
        rw [hr] at hlen'
        exact absurd hlen' (by simp)
      rw [← hr, murmurTail_eq hne hlen, murmurTail_eq hne' (hlen' ▸ hlen),
        BitVec.setWidth_mul _ _ hk, BitVec.setWidth_mul _ _ hk, BitVec.setWidth_xor,
        BitVec.setWidth_xor, hh, hrest]

end

theorem SamePlace.length_eq {u v post : List Byte} (h : SamePlace u v post) :
    u.length = v.length := by
  cases h with
  | block hu hv => rw [hu, hv]
  | tail _ _ _ hv => exact hv.symm

/-- The lowest bits in which the words of a place agree are kept to the end. -/
theorem combined_low {pre u v post : List Byte} (hpre : pre.length % 4 = 0)
    (h : SamePlace u v post) (hlow : (placeWord u).setWidth 14 = (placeWord v).setWidth 14) :
    (combined (pre ++ (u ++ post))).setWidth 14 = (combined (pre ++ (v ++ post))).setWidth 14 := by
  have hlen : (pre ++ (v ++ post)).length = (pre ++ (u ++ post)).length := by
    simp [h.length_eq]
  unfold combined
  dsimp only
  rw [hlen, murmurLoop_append hpre, murmurLoop_append hpre]
  generalize (murmurLoop (1138#32 ^^^ BitVec.ofNat 32 (pre ++ (u ++ post)).length) pre).1 = hash
  cases h with
  | block hu hv =>
      obtain ⟨a, b, c, d, rfl⟩ := length_four hu
      obtain ⟨a', b', c', d', rfl⟩ := length_four hv
      obtain ⟨rest, hrest, hloop⟩ := murmurLoop_rest post
      rw [← mixBlock_eq_placeWord, ← mixBlock_eq_placeWord] at hlow
      simp only [List.cons_append, List.nil_append, murmurLoop_cons, hloop]
      exact setWidth_murmurTail (by decide) hrest rfl
        (setWidth_murmurLoop (by decide) (setWidth_combine (by decide) rfl hlow)) rfl
  | tail hpost hpos hu hv =>
      subst hpost
      rw [placeWord, if_neg (by omega), placeWord, if_neg (by omega)] at hlow
      rw [List.append_nil, List.append_nil, murmurLoop_short hu, murmurLoop_short (hv ▸ hu)]
      exact setWidth_murmurTail (by decide) hu hv rfl hlow

/-- Behind the last block there is nothing that could change the difference. -/
theorem combined_xor_last {pre u v : List Byte} (hpre : pre.length % 4 = 0) (hu : u.length = 4)
    (hv : v.length = 4) :
    combined (pre ++ (u ++ [])) ^^^ combined (pre ++ (v ++ [])) = placeWord u ^^^ placeWord v := by
  have hlen : (pre ++ (v ++ [])).length = (pre ++ (u ++ [])).length := by
    simp [hu, hv]
  unfold combined
  dsimp only
  rw [hlen, murmurLoop_append hpre, murmurLoop_append hpre]
  generalize (murmurLoop (1138#32 ^^^ BitVec.ofNat 32 (pre ++ (u ++ [])).length) pre).1 = hash
  obtain ⟨a, b, c, d, rfl⟩ := length_four hu
  obtain ⟨a', b', c', d', rfl⟩ := length_four hv
  rw [← mixBlock_eq_placeWord, ← mixBlock_eq_placeWord]
  show hash * multVal ^^^ _ ^^^ (hash * multVal ^^^ _) = _
  generalize hash * multVal = x
  rw [BitVec.xor_comm x, BitVec.xor_assoc, ← BitVec.xor_assoc x, BitVec.xor_self,
    BitVec.zero_xor]

/-! ## The whole hash -/

/--
The last steps cannot merge a change of `v` into `u`, wherever it is: the words of the place
agree in their fourteen lowest bits, or it is the last block, and their difference is not
one that the last steps can undo.
-/
def KeptApart (u v post : List Byte) : Prop :=
  (placeWord u).setWidth 14 = (placeWord v).setWidth 14 ∨
    (u.length = 4 ∧ post = [] ∧ placeWord u ^^^ placeWord v ≠ BitVec.allOnes 32 ∧
      (mergedSum - shiftMix 13 (placeWord u ^^^ placeWord v)) &&&
        (shiftMix 13 (placeWord u ^^^ placeWord v) <<< 1 ||| 1#32) ≠ 0#32)

instance (u v post : List Byte) : Decidable (KeptApart u v post) :=
  inferInstanceAs (Decidable (_ ∨ _))

instance (u v : List Byte) : Decidable (Merged u v) := inferInstanceAs (Decidable (_ ∧ _))

theorem finish_ne_of_kept {pre u v post : List Byte} (hpre : pre.length % 4 = 0)
    (h : SamePlace u v post) (hkept : KeptApart u v post)
    (hne : combined (pre ++ (u ++ post)) ≠ combined (pre ++ (v ++ post))) :
    finish (combined (pre ++ (u ++ post))) ≠ finish (combined (pre ++ (v ++ post))) := by
  rcases hkept with hlow | ⟨hu, hpost, hnot, hcarries⟩
  · exact finish_ne_of_low hne (combined_low hpre h hlow)
  · subst hpost
    rw [← combined_xor_last hpre hu (h.length_eq ▸ hu)] at hnot hcarries
    exact finish_ne_of_carries hne hnot hcarries

/-- All that can be at a place can take each other's place. -/
theorem SamePlace.of_both {u u' v post : List Byte} (h : SamePlace u v post)
    (h' : SamePlace u' v post) : SamePlace u u' post := by
  cases h with
  | block hu hv => exact .block hu (h'.length_eq.trans hv)
  | tail hpost hpos hu hv =>
      have hu' : u'.length = u.length := h'.length_eq.trans hv
      exact .tail hpost hpos hu hu'

theorem SamePlace.self {u v post : List Byte} (h : SamePlace u v post) : SamePlace v v post := by
  cases h with
  | block hu hv => exact .block hv hv
  | tail hpost hpos hu hv => exact .tail hpost (by omega) (by omega) rfl

end ScoutComputer
