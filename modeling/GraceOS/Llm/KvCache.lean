import GraceOS.Llm.Scratch

/-!
# Places in the KV cache

Displacements in entries of 16 bits: of keys from `kvcache.k`, the start of the segment, and of values from
`kvcache.v`. Some are computed in 64 bits and one in 32.
-/

namespace graceos.llm

/-- `(uint64_t)layer` of `forward_layer`, whose `layer` is an `int`. -/
def layer_u64 (layer : UInt32) : Nat :=
  if layer.toNat < 2 ^ 31 then layer.toNat else layer.toNat + (2 ^ 64 - 2 ^ 32)

/-- Where `kvcache.v` stands. -/
def kvcache_v (hp : Hparams) (n_ctx : UInt32) : Nat :=
  hp.n_layer.toNat * n_ctx.toNat * hp.n_embd_gqa.toNat % 2 ^ 64

/-- Where `forward_layer` writes the `gqa` entries of a position, in the keys and in the values. -/
def kv_write (hp : Hparams) (n_ctx layer pos : UInt32) : Nat :=
  let gqa := hp.kv_heads * hp.n_embd_head_k
  layer_u64 layer * n_ctx.toNat * gqa.toNat % 2 ^ 64 + (pos * gqa).toNat

/-- Where it reads the `n_embd_head_k` entries of a position for a head. -/
def kv_read (hp : Hparams) (n_ctx layer t kv_head : UInt32) : Nat :=
  layer_u64 layer * n_ctx.toNat * hp.n_embd_gqa.toNat % 2 ^ 64 + t.toNat * hp.n_embd_gqa.toNat +
    kv_head.toNat * hp.n_embd_head_k.toNat

/-- Division in C; nothing for a division by zero. -/
def div (a b : UInt32) : Option UInt32 := if b = 0 then none else some (a / b)

/-- The key and value head of a head. -/
def kv_head_of (hp : Hparams) (h : UInt32) : Option UInt32 := do
  let n_kv_groups ← div hp.n_head hp.kv_heads
  div h n_kv_groups

/-- The accesses of `forward_layer` at every layer and position stay within their places. -/
structure CacheSound (hp : Hparams) (n_ctx : UInt32) : Prop where
  keys_inside : ∀ layer < hp.n_layer, ∀ pos < n_ctx,
    kv_write hp n_ctx layer pos + hp.n_embd_gqa.toNat ≤ kv_bytes hp n_ctx / 4
  values_inside : ∀ layer < hp.n_layer, ∀ pos < n_ctx,
    kv_bytes hp n_ctx / 4 ≤ kvcache_v hp n_ctx + kv_write hp n_ctx layer pos ∧
      kvcache_v hp n_ctx + kv_write hp n_ctx layer pos + hp.n_embd_gqa.toNat ≤ kv_bytes hp n_ctx / 2
  disjoint : ∀ layer < hp.n_layer, ∀ pos < n_ctx, ∀ layer' < hp.n_layer, ∀ pos' < n_ctx,
    (layer, pos) ≠ (layer', pos') →
      kv_write hp n_ctx layer pos + hp.n_embd_gqa.toNat ≤ kv_write hp n_ctx layer' pos' ∨
        kv_write hp n_ctx layer' pos' + hp.n_embd_gqa.toNat ≤ kv_write hp n_ctx layer pos
  reads_inside : ∀ layer < hp.n_layer, ∀ t < n_ctx, ∀ h < hp.n_head, ∃ kv_head, kv_head_of hp h = some kv_head ∧
    kv_write hp n_ctx layer t ≤ kv_read hp n_ctx layer t kv_head ∧
      kv_read hp n_ctx layer t kv_head + hp.n_embd_head_k.toNat ≤ kv_write hp n_ctx layer t + hp.n_embd_gqa.toNat

/-! ## What creation promises -/

section

variable {raw : Hparams} {n_ctx : UInt32}

theorem derived_gqa (raw : Hparams) : (llm_hparams_derive raw).n_embd_gqa =
    (llm_hparams_derive raw).kv_heads * (llm_hparams_derive raw).n_embd_head_k := UInt32.mul_comm _ _

theorem kv_bytes_pos (h : kv_bytes (llm_hparams_derive raw) n_ctx ≠ 0) :
    0 < n_ctx.toNat ∧ 0 < raw.n_layer.toNat ∧ 0 < (llm_hparams_derive raw).n_embd_gqa.toNat ∧
      0 < (llm_hparams_derive raw).n_embd_head_k.toNat ∧ 0 < (llm_hparams_derive raw).kv_heads.toNat ∧
      0 < raw.n_head.toNat := by
  have hfactors : 2 * raw.n_layer.toNat * n_ctx.toNat * (llm_hparams_derive raw).n_embd_gqa.toNat * 2 ≠ 0 := by
    intro hzero
    apply h
    change 2 * raw.n_layer.toNat * n_ctx.toNat * (llm_hparams_derive raw).n_embd_gqa.toNat * 2 % 2 ^ 64 = 0
    rw [hzero, Nat.zero_mod]
  simp only [ne_eq, mul_eq_zero, not_or] at hfactors
  obtain ⟨⟨⟨⟨-, hlayer⟩, hctx⟩, hgqa⟩, -⟩ := hfactors
  have hhead_k : (llm_hparams_derive raw).n_embd_head_k.toNat ≠ 0 := by
    intro hzero
    apply hgqa
    rw [derived_gqa, UInt32.toNat_mul, hzero, Nat.mul_zero, Nat.zero_mod]
  have hkv : (llm_hparams_derive raw).kv_heads.toNat ≠ 0 := by
    intro hzero
    apply hgqa
    rw [derived_gqa, UInt32.toNat_mul, hzero, Nat.zero_mul, Nat.zero_mod]
  have hhead : raw.n_head.toNat ≠ 0 := by
    intro hzero
    apply hhead_k
    have hn : raw.n_head = 0 := UInt32.toNat_inj.mp hzero
    simp [llm_hparams_derive, hn]
  omega

/-- The shapes for which every access stays in its place. -/
structure CacheShape (hp : Hparams) (n_ctx : UInt32) : Prop where
  grouped : hp.kv_heads.toNat ∣ hp.n_head.toNat
  layers : hp.n_layer.toNat ≤ 2 ^ 31
  positions : (n_ctx.toNat - 1) * hp.n_embd_gqa.toNat < 2 ^ 32
  bytes : 4 * (hp.n_layer.toNat * (n_ctx.toNat * hp.n_embd_gqa.toNat)) < 2 ^ 64

theorem kv_bytes_eq (hp : Hparams) (n_ctx : UInt32) :
    kv_bytes hp n_ctx = 4 * (hp.n_layer.toNat * (n_ctx.toNat * hp.n_embd_gqa.toNat)) % 2 ^ 64 := by
  rw [kv_bytes]
  congr 1
  ring

theorem kv_write_eq (raw : Hparams) (n_ctx layer pos : UInt32) :
    kv_write (llm_hparams_derive raw) n_ctx layer pos =
      layer_u64 layer * (n_ctx.toNat * (llm_hparams_derive raw).n_embd_gqa.toNat) % 2 ^ 64 +
        pos.toNat * (llm_hparams_derive raw).n_embd_gqa.toNat % 2 ^ 32 := by
  rw [kv_write, ← derived_gqa, UInt32.toNat_mul, Nat.mul_assoc]

/-! ## Sound shapes -/

theorem kv_write_exact (hshape : CacheShape (llm_hparams_derive raw) n_ctx) {layer pos : UInt32}
    (hlayer : layer < raw.n_layer) (hpos : pos < n_ctx) :
    kv_write (llm_hparams_derive raw) n_ctx layer pos =
      (layer.toNat * n_ctx.toNat + pos.toNat) * (llm_hparams_derive raw).n_embd_gqa.toNat := by
  have hlayer' : layer.toNat < raw.n_layer.toNat := UInt32.lt_iff_toNat_lt.mp hlayer
  have hpos' : pos.toNat < n_ctx.toNat := UInt32.lt_iff_toNat_lt.mp hpos
  have hlayers : raw.n_layer.toNat ≤ 2 ^ 31 := hshape.layers
  have hbytes : 4 * (raw.n_layer.toNat * (n_ctx.toNat * (llm_hparams_derive raw).n_embd_gqa.toNat)) < 2 ^ 64 :=
    hshape.bytes
  have hpositions := hshape.positions
  have hplace : layer.toNat * (n_ctx.toNat * (llm_hparams_derive raw).n_embd_gqa.toNat) ≤
      raw.n_layer.toNat * (n_ctx.toNat * (llm_hparams_derive raw).n_embd_gqa.toNat) :=
    Nat.mul_le_mul_right _ hlayer'.le
  have hoffset : pos.toNat * (llm_hparams_derive raw).n_embd_gqa.toNat ≤
      (n_ctx.toNat - 1) * (llm_hparams_derive raw).n_embd_gqa.toNat := Nat.mul_le_mul_right _ (by omega)
  rw [kv_write_eq, layer_u64, if_pos (by omega), Nat.mod_eq_of_lt (by omega), Nat.mod_eq_of_lt (by omega)]
  ring

theorem place_succ_le {layer pos n_layer n : Nat} (hlayer : layer < n_layer) (hpos : pos < n) :
    layer * n + pos + 1 ≤ n_layer * n :=
  calc layer * n + pos + 1 ≤ layer * n + n := by omega
    _ = (layer + 1) * n := (Nat.succ_mul layer n).symm
    _ ≤ n_layer * n := Nat.mul_le_mul_right n hlayer

theorem kv_write_end_le (hshape : CacheShape (llm_hparams_derive raw) n_ctx) {layer pos : UInt32}
    (hlayer : layer < raw.n_layer) (hpos : pos < n_ctx) :
    kv_write (llm_hparams_derive raw) n_ctx layer pos + (llm_hparams_derive raw).n_embd_gqa.toNat ≤
      raw.n_layer.toNat * (n_ctx.toNat * (llm_hparams_derive raw).n_embd_gqa.toNat) := by
  have hplace := place_succ_le (UInt32.lt_iff_toNat_lt.mp hlayer) (UInt32.lt_iff_toNat_lt.mp hpos)
  rw [kv_write_exact hshape hlayer hpos, ← Nat.succ_mul, ← Nat.mul_assoc]
  exact Nat.mul_le_mul_right _ hplace

theorem places_apart {a b w : Nat} (h : a ≠ b) : a * w + w ≤ b * w ∨ b * w + w ≤ a * w := by
  rcases Nat.lt_or_gt_of_ne h with h | h
  · left
    rw [← Nat.succ_mul]
    exact Nat.mul_le_mul_right w h
  · right
    rw [← Nat.succ_mul]
    exact Nat.mul_le_mul_right w h

theorem place_inj {layer pos layer' pos' n : Nat} (hpos : pos < n) (hpos' : pos' < n)
    (h : layer * n + pos = layer' * n + pos') : layer = layer' ∧ pos = pos' := by
  have hmod : (layer * n + pos) % n = (layer' * n + pos') % n := congrArg (· % n) h
  rw [Nat.mul_add_mod_of_lt hpos, Nat.mul_add_mod_of_lt hpos'] at hmod
  subst hmod
  have hmul : layer * n = layer' * n := Nat.add_right_cancel h
  exact ⟨Nat.eq_of_mul_eq_mul_right (Nat.zero_lt_of_lt hpos) hmul, rfl⟩

theorem kv_head_of_lt (hp : Hparams) (hdvd : hp.kv_heads.toNat ∣ hp.n_head.toNat) (hkv : 0 < hp.kv_heads.toNat)
    {h : UInt32} (hlt : h < hp.n_head) : ∃ kv_head, kv_head_of hp h = some kv_head ∧ kv_head < hp.kv_heads := by
  have hlt' : h.toNat < hp.n_head.toNat := UInt32.lt_iff_toNat_lt.mp hlt
  have hkv_ne : hp.kv_heads ≠ 0 := by
    intro hzero
    rw [hzero] at hkv
    exact absurd hkv (by decide)
  have hgroups : (hp.n_head / hp.kv_heads).toNat = hp.n_head.toNat / hp.kv_heads.toNat := UInt32.toNat_div _ _
  have hgroups_pos : 0 < hp.n_head.toNat / hp.kv_heads.toNat :=
    Nat.div_pos (Nat.le_of_dvd (by omega) hdvd) hkv
  have hgroups_ne : hp.n_head / hp.kv_heads ≠ 0 := by
    intro hzero
    rw [hzero] at hgroups
    change 0 = _ at hgroups
    omega
  refine ⟨h / (hp.n_head / hp.kv_heads), ?_, ?_⟩
  · simp only [kv_head_of, div, if_neg hkv_ne, Option.bind_eq_bind, Option.bind_some, if_neg hgroups_ne]
  · rw [UInt32.lt_iff_toNat_lt, UInt32.toNat_div, hgroups, Nat.div_lt_iff_lt_mul hgroups_pos,
      Nat.mul_div_cancel' hdvd]
    exact hlt'

theorem gqa_exact (hkv : (llm_hparams_derive raw).kv_heads.toNat ≤ raw.n_head.toNat) :
    (llm_hparams_derive raw).n_embd_gqa.toNat =
      (llm_hparams_derive raw).kv_heads.toNat * (llm_hparams_derive raw).n_embd_head_k.toNat := by
  have hheads := heads_le_embd raw
  have hn_embd := raw.n_embd.toNat_lt
  have hle : (llm_hparams_derive raw).kv_heads.toNat * (llm_hparams_derive raw).n_embd_head_k.toNat ≤
      raw.n_head.toNat * (llm_hparams_derive raw).n_embd_head_k.toNat := Nat.mul_le_mul_right _ hkv
  rw [derived_gqa, UInt32.toNat_mul, Nat.mod_eq_of_lt (by omega)]

theorem CacheShape.sound (hcreated : kv_bytes (llm_hparams_derive raw) n_ctx ≠ 0)
    (hshape : CacheShape (llm_hparams_derive raw) n_ctx) : CacheSound (llm_hparams_derive raw) n_ctx := by
  obtain ⟨hctx, hlayer, hgqa, hhead_k, hkv, hhead⟩ := kv_bytes_pos hcreated
  have hbytes := hshape.bytes
  have hfull : kv_bytes (llm_hparams_derive raw) n_ctx =
      4 * (raw.n_layer.toNat * (n_ctx.toNat * (llm_hparams_derive raw).n_embd_gqa.toNat)) := by
    rw [kv_bytes_eq, Nat.mod_eq_of_lt hbytes]
    rfl
  have hvalues : kvcache_v (llm_hparams_derive raw) n_ctx =
      raw.n_layer.toNat * (n_ctx.toNat * (llm_hparams_derive raw).n_embd_gqa.toNat) := by
    rw [kvcache_v, Nat.mul_assoc, Nat.mod_eq_of_lt (by omega)]
    rfl
  constructor
  case keys_inside =>
    intro layer hlayer' pos hpos
    have hend := kv_write_end_le hshape hlayer' hpos
    omega
  case values_inside =>
    intro layer hlayer' pos hpos
    have hend := kv_write_end_le hshape hlayer' hpos
    rw [hvalues, hfull]
    constructor
    · omega
    · omega
  case disjoint =>
    intro layer hl pos hp layer' hl' pos' hp' hne
    rw [kv_write_exact hshape hl hp, kv_write_exact hshape hl' hp']
    apply places_apart
    intro hsame
    obtain ⟨h1, h2⟩ := place_inj (UInt32.lt_iff_toNat_lt.mp hp) (UInt32.lt_iff_toNat_lt.mp hp') hsame
    exact hne (Prod.ext (UInt32.toNat_inj.mp h1) (UInt32.toNat_inj.mp h2))
  case reads_inside =>
    intro layer hl t ht h hh
    obtain ⟨kv_head, hof, hlt⟩ := kv_head_of_lt _ hshape.grouped hkv hh
    have hlt' : kv_head.toNat < (llm_hparams_derive raw).kv_heads.toNat := UInt32.lt_iff_toNat_lt.mp hlt
    have hwithin : kv_head.toNat * (llm_hparams_derive raw).n_embd_head_k.toNat +
        (llm_hparams_derive raw).n_embd_head_k.toNat ≤ (llm_hparams_derive raw).n_embd_gqa.toNat := by
      rw [gqa_exact (Nat.le_of_dvd hhead hshape.grouped), ← Nat.succ_mul]
      exact Nat.mul_le_mul_right _ hlt'
    have hread : kv_read (llm_hparams_derive raw) n_ctx layer t kv_head =
        kv_write (llm_hparams_derive raw) n_ctx layer t +
          kv_head.toNat * (llm_hparams_derive raw).n_embd_head_k.toNat := by
      have hposition : t.toNat * (llm_hparams_derive raw).n_embd_gqa.toNat < 2 ^ 32 := by
        apply (Nat.mul_le_mul_right _ ?_).trans_lt hshape.positions
        have ht' : t.toNat < n_ctx.toNat := UInt32.lt_iff_toNat_lt.mp ht
        omega
      rw [kv_read, kv_write_eq, Nat.mod_eq_of_lt hposition, Nat.mul_assoc]
    refine ⟨kv_head, hof, ?_, ?_⟩
    · omega
    · omega

/-! ## Other shapes -/

theorem exists_word {n m : Nat} (hn : n < m) (hm : m < 2 ^ 32) : ∃ x : UInt32, x.toNat = n :=
  ⟨UInt32.ofNat n, UInt32.toNat_ofNat_of_lt' (hn.trans hm)⟩

theorem CacheSound.grouped (hcreated : kv_bytes (llm_hparams_derive raw) n_ctx ≠ 0)
    (hsound : CacheSound (llm_hparams_derive raw) n_ctx) :
    (llm_hparams_derive raw).kv_heads.toNat ∣ raw.n_head.toNat := by
  obtain ⟨hctx, hlayer, hgqa, hhead_k, hkv, hhead⟩ := kv_bytes_pos hcreated
  have hkv_ne : (llm_hparams_derive raw).kv_heads ≠ 0 := by
    intro hzero
    rw [hzero] at hkv
    exact absurd hkv (by decide)
  obtain ⟨h, hh⟩ := exists_word (Nat.sub_lt hhead Nat.one_pos) raw.n_head.toNat_lt
  obtain ⟨kv_head, hof, -, hread⟩ := hsound.reads_inside 0 (UInt32.lt_iff_toNat_lt.mpr hlayer) 0
    (UInt32.lt_iff_toNat_lt.mpr hctx) h (UInt32.lt_iff_toNat_lt.mpr (by
      change h.toNat < raw.n_head.toNat
      omega))
  have hgroups : (raw.n_head / (llm_hparams_derive raw).kv_heads).toNat =
      raw.n_head.toNat / (llm_hparams_derive raw).kv_heads.toNat := UInt32.toNat_div _ _
  have hdiv : div raw.n_head (llm_hparams_derive raw).kv_heads =
      some (raw.n_head / (llm_hparams_derive raw).kv_heads) := if_neg hkv_ne
  change (div raw.n_head (llm_hparams_derive raw).kv_heads).bind (fun g => div h g) = some kv_head at hof
  rw [hdiv, Option.bind_some, div] at hof
  have hgroups_ne : raw.n_head / (llm_hparams_derive raw).kv_heads ≠ 0 := by
    intro hzero
    rw [if_pos hzero] at hof
    cases hof
  have hgroups_pos : 0 < raw.n_head.toNat / (llm_hparams_derive raw).kv_heads.toNat := by
    rw [← hgroups]
    exact Nat.pos_of_ne_zero fun hzero => hgroups_ne (UInt32.toNat_inj.mp hzero)
  have hle : (llm_hparams_derive raw).kv_heads.toNat ≤ raw.n_head.toNat :=
    ((Nat.div_pos_iff).mp hgroups_pos).2
  have hkv_head : kv_head.toNat = (raw.n_head.toNat - 1) /
      (raw.n_head.toNat / (llm_hparams_derive raw).kv_heads.toNat) := by
    rw [if_neg hgroups_ne] at hof
    rw [← Option.some.inj hof, UInt32.toNat_div, hh, hgroups]
  -- the last head reads within the first place only where its key and value head exists
  have hexists : kv_head.toNat < (llm_hparams_derive raw).kv_heads.toNat := by
    have hfirst : kv_write (llm_hparams_derive raw) n_ctx 0 0 = 0 := by
      rw [kv_write_eq]
      simp [layer_u64]
    have hfirst_read : kv_read (llm_hparams_derive raw) n_ctx 0 0 kv_head =
        kv_head.toNat * (llm_hparams_derive raw).n_embd_head_k.toNat := by
      simp [kv_read, layer_u64]
    rw [hfirst, hfirst_read, gqa_exact hle, ← Nat.succ_mul, Nat.zero_add] at hread
    exact Nat.le_of_mul_le_mul_right hread hhead_k
  rw [hkv_head, Nat.div_lt_iff_lt_mul hgroups_pos] at hexists
  have hmul := Nat.mul_div_le raw.n_head.toNat (llm_hparams_derive raw).kv_heads.toNat
  exact ⟨_, Nat.le_antisymm (by omega) hmul⟩

theorem CacheSound.positions (hcreated : kv_bytes (llm_hparams_derive raw) n_ctx ≠ 0)
    (hsound : CacheSound (llm_hparams_derive raw) n_ctx) :
    (n_ctx.toNat - 1) * (llm_hparams_derive raw).n_embd_gqa.toNat < 2 ^ 32 := by
  obtain ⟨hctx, hlayer, hgqa, -, -, -⟩ := kv_bytes_pos hcreated
  have hn_ctx := n_ctx.toNat_lt
  by_contra hover
  -- the first position whose offset leaves 32 bits comes to lie on the first place
  have hwidth := (llm_hparams_derive raw).n_embd_gqa.toNat_lt
  set w := (llm_hparams_derive raw).n_embd_gqa.toNat with hw
  obtain ⟨q, hq⟩ : ∃ q, q = (2 ^ 32 - 1) / w := ⟨_, rfl⟩
  have hbelow : w * q ≤ 2 ^ 32 - 1 := by
    rw [hq]
    exact Nat.mul_div_le _ _
  have habove : 2 ^ 32 - 1 < w * q + w := by
    rw [hq, ← Nat.mul_succ]
    exact Nat.lt_mul_div_succ _ hgqa
  have hfirst : q + 1 < n_ctx.toNat := by
    have hlt : q < n_ctx.toNat - 1 := by
      rw [hq, Nat.div_lt_iff_lt_mul hgqa]
      omega
    omega
  obtain ⟨pos, hpos⟩ := exists_word hfirst hn_ctx
  have hplace : pos.toNat * w = w * q + w := by
    rw [hpos]
    ring
  have hzero : kv_write (llm_hparams_derive raw) n_ctx 0 0 = 0 := by
    rw [kv_write_eq]
    simp [layer_u64]
  have hwrite : kv_write (llm_hparams_derive raw) n_ctx 0 pos = pos.toNat * w % 2 ^ 32 := by
    rw [kv_write_eq]
    simp [layer_u64, hw]
  have hne : ((0 : UInt32), (0 : UInt32)) ≠ (0, pos) := by
    intro hsame
    rw [← (Prod.mk.inj hsame).2] at hpos
    change 0 = _ at hpos
    omega
  have hapart := hsound.disjoint 0 (UInt32.lt_iff_toNat_lt.mpr hlayer) 0 (UInt32.lt_iff_toNat_lt.mpr hctx) 0
    (UInt32.lt_iff_toNat_lt.mpr hlayer) pos (UInt32.lt_iff_toNat_lt.mpr (by omega)) hne
  have hwrapped : pos.toNat * w % 2 ^ 32 < w := by
    rw [hplace]
    omega
  rw [hzero, hwrite, ← hw] at hapart
  rcases hapart with hapart | hapart
  · omega
  · omega

/-- The layer whose places reach 2^62 entries is none of those that the code counts right. -/
theorem CacheSound.layer_at_limit (hcreated : kv_bytes (llm_hparams_derive raw) n_ctx ≠ 0)
    (hsound : CacheSound (llm_hparams_derive raw) n_ctx)
    (hlayer : 2 ^ 62 / (n_ctx.toNat * (llm_hparams_derive raw).n_embd_gqa.toNat) < raw.n_layer.toNat) :
    2 ^ 31 ≤ 2 ^ 62 / (n_ctx.toNat * (llm_hparams_derive raw).n_embd_gqa.toNat) := by
  obtain ⟨hctx, -, hgqa, -, -, -⟩ := kv_bytes_pos hcreated
  have hpositions := hsound.positions hcreated
  have hn_ctx := n_ctx.toNat_lt
  by_contra hsmall
  obtain ⟨layer, hl⟩ := exists_word hlayer raw.n_layer.toNat_lt
  obtain ⟨pos, hp⟩ := exists_word (Nat.sub_lt hctx Nat.one_pos) hn_ctx
  have hinside := hsound.keys_inside layer (UInt32.lt_iff_toNat_lt.mpr (by
    change layer.toNat < raw.n_layer.toNat
    omega)) pos (UInt32.lt_iff_toNat_lt.mpr (by omega))
  have hbytes : kv_bytes (llm_hparams_derive raw) n_ctx < 2 ^ 64 := by
    rw [kv_bytes_eq]
    exact Nat.mod_lt _ (by decide)
  have hsize : 0 < n_ctx.toNat * (llm_hparams_derive raw).n_embd_gqa.toNat := Nat.mul_pos hctx hgqa
  have hdiv := Nat.div_add_mod (2 ^ 62) (n_ctx.toNat * (llm_hparams_derive raw).n_embd_gqa.toNat)
  have hmod := Nat.mod_lt (2 ^ 62) hsize
  have hlast : (n_ctx.toNat - 1) * (llm_hparams_derive raw).n_embd_gqa.toNat +
      (llm_hparams_derive raw).n_embd_gqa.toNat = n_ctx.toNat * (llm_hparams_derive raw).n_embd_gqa.toNat := by
    rw [← Nat.succ_mul]
    congr 1
    omega
  rw [kv_write_eq, layer_u64, if_pos (by omega), hl, hp, Nat.mul_comm (2 ^ 62 / _), Nat.mod_eq_of_lt hpositions,
    Nat.mod_eq_of_lt (by omega)] at hinside
  omega

theorem CacheSound.layers (hcreated : kv_bytes (llm_hparams_derive raw) n_ctx ≠ 0)
    (hsound : CacheSound (llm_hparams_derive raw) n_ctx) : raw.n_layer.toNat ≤ 2 ^ 31 := by
  obtain ⟨hctx, -, hgqa, -, -, -⟩ := kv_bytes_pos hcreated
  have hsize : 0 < n_ctx.toNat * (llm_hparams_derive raw).n_embd_gqa.toNat := Nat.mul_pos hctx hgqa
  by_contra hmany
  by_cases hwide : n_ctx.toNat * (llm_hparams_derive raw).n_embd_gqa.toNat < 3 * 2 ^ 31
  · -- the layer number is negative as an int, and its places lie below the segment
    obtain ⟨layer, hl⟩ := exists_word (not_le.mp hmany) raw.n_layer.toNat_lt
    have hinside := hsound.keys_inside layer (UInt32.lt_iff_toNat_lt.mpr (by
      change layer.toNat < raw.n_layer.toNat
      omega)) 0 (UInt32.lt_iff_toNat_lt.mpr hctx)
    have hbytes : kv_bytes (llm_hparams_derive raw) n_ctx < 2 ^ 64 := by
      rw [kv_bytes_eq]
      exact Nat.mod_lt _ (by decide)
    have hbelow : (2 ^ 31 + (2 ^ 64 - 2 ^ 32)) * (n_ctx.toNat * (llm_hparams_derive raw).n_embd_gqa.toNat) =
        2 ^ 64 - 2 ^ 31 * (n_ctx.toNat * (llm_hparams_derive raw).n_embd_gqa.toNat) +
          2 ^ 64 * (n_ctx.toNat * (llm_hparams_derive raw).n_embd_gqa.toNat - 1) := by omega
    rw [kv_write_eq, layer_u64, if_neg (by omega), hl, hbelow, Nat.add_mul_mod_self_left,
      Nat.mod_eq_of_lt (by omega)] at hinside
    omega
  · have hlimit : 2 ^ 62 / (n_ctx.toNat * (llm_hparams_derive raw).n_embd_gqa.toNat) < 2 ^ 31 := by
      rw [Nat.div_lt_iff_lt_mul hsize]
      omega
    have hover := hsound.layer_at_limit hcreated (by omega)
    omega

theorem CacheSound.bytes (hcreated : kv_bytes (llm_hparams_derive raw) n_ctx ≠ 0)
    (hsound : CacheSound (llm_hparams_derive raw) n_ctx) :
    4 * (raw.n_layer.toNat * (n_ctx.toNat * (llm_hparams_derive raw).n_embd_gqa.toNat)) < 2 ^ 64 := by
  obtain ⟨hctx, -, hgqa, -, -, -⟩ := kv_bytes_pos hcreated
  have hsize : 0 < n_ctx.toNat * (llm_hparams_derive raw).n_embd_gqa.toNat := Nat.mul_pos hctx hgqa
  have hlayers := hsound.layers hcreated
  by_contra hover
  have hlimit : 2 ^ 62 / (n_ctx.toNat * (llm_hparams_derive raw).n_embd_gqa.toNat) < raw.n_layer.toNat := by
    rw [Nat.div_lt_iff_lt_mul hsize]
    -- exactly 2^62 entries count as none
    have hne : raw.n_layer.toNat * (n_ctx.toNat * (llm_hparams_derive raw).n_embd_gqa.toNat) ≠ 2 ^ 62 := by
      intro hexact
      apply hcreated
      rw [kv_bytes_eq]
      change 4 * (raw.n_layer.toNat * (n_ctx.toNat * (llm_hparams_derive raw).n_embd_gqa.toNat)) % 2 ^ 64 = 0
      rw [hexact]
      decide
    omega
  have hhigh := hsound.layer_at_limit hcreated hlimit
  omega

theorem kv_bytes_ne_zero_of_create {segment : Nat → Bool} {hp : Hparams} {ctx : Ctx}
    (h : llm_ctx_create segment hp n_ctx = some ctx) : kv_bytes hp n_ctx ≠ 0 := by
  intro hzero
  rw [llm_ctx_create, if_pos (Or.inl hzero)] at h
  cases h

/-- The accesses to the cache of a created context stay in their places exactly for these shapes. -/
theorem cache_sound_iff {segment : Nat → Bool} {ctx : Ctx}
    (hcreate : llm_ctx_create segment (llm_hparams_derive raw) n_ctx = some ctx) :
    CacheSound (llm_hparams_derive raw) n_ctx ↔ CacheShape (llm_hparams_derive raw) n_ctx := by
  have hcreated := kv_bytes_ne_zero_of_create hcreate
  constructor
  · intro hsound
    exact ⟨hsound.grouped hcreated, hsound.layers hcreated, hsound.positions hcreated, hsound.bytes hcreated⟩
  · exact CacheShape.sound hcreated

theorem cache_sound_iff_one_layer :
    CacheSound (llm_hparams_derive one_layer) 512 ↔ CacheShape (llm_hparams_derive one_layer) 512 :=
  @cache_sound_iff one_layer 512 (fun _ => true) { n_ctx := 512, cbuf := { total := 17952 } } (by decide)

/-- A file with 8 heads that does not count the key and value heads gets 32 of these. -/
def eight_heads (key : String) (default : UInt32) : UInt32 :=
  if key = "llama.attention.head_count" then 8 else default

theorem cache_unsound_eight_heads :
    (llm_ctx_create (fun _ => true) (llm_model_hparams eight_heads) 512).isSome = true ∧
      kv_head_of (llm_model_hparams eight_heads) 0 = none ∧ ¬ CacheSound (llm_model_hparams eight_heads) 512 := by
  refine ⟨by decide, by decide, ?_⟩
  intro hsound
  have hdvd := hsound.grouped (by decide)
  exact absurd hdvd (by decide)

end

end graceos.llm
