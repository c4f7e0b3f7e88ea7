import BdkFloresta.Node.Builder
import Mathlib.Data.Nat.ModEq

/-!
What the parts of a node can tell about its configuration. Every field reaches a part
unchanged, up to `None` and an empty list of fixed peers, but two: no part is given the
assume-valid block, and of the mempool size a build that wraps keeps only the residue
modulo the sizes whose bytes fill a `usize`. Both laws compare two builds.
-/

namespace BdkFloresta

/-- How far apart mempool sizes are whose bytes wrap to the same `usize`. -/
def PointerWidth.mempoolPeriod : PointerWidth → Nat
  | .bits32 => 67108864
  | .bits64 => 288230376151711744

theorem PointerWidth.period_mul (width : PointerWidth) :
    width.usizeMax + 1 = width.mempoolPeriod * 64 := by
  cases width <;> rfl

theorem PointerWidth.period_coprime (width : PointerWidth) :
    Nat.gcd width.mempoolPeriod 15625 = 1 := by
  cases width <;> decide

theorem bytes_modEq_iff (width : PointerWidth) (x y : Nat) :
    x * bytesPerMb ≡ y * bytesPerMb [MOD width.usizeMax + 1] ↔
      x ≡ y [MOD width.mempoolPeriod] := by
  -- the even factor of a megabyte shortens the period, the odd one is invertible
  have hbytes : ∀ z, z * bytesPerMb = z * 15625 * 64 := fun z => by
    rw [Nat.mul_assoc]
    rfl
  rw [hbytes, hbytes, width.period_mul, Nat.ModEq.mul_right_cancel_iff' (by decide)]
  exact ⟨Nat.ModEq.cancel_right_of_coprime width.period_coprime, Nat.ModEq.mul_right 15625⟩

theorem Overflow.mulUsize_eq_some {ov : Overflow} {width : PointerWidth} {a b c : Nat}
    (h : ov.mulUsize width a b = some c) :
    c = a * b % (width.usizeMax + 1) ∧ (c = a * b ↔ a * b ≤ width.usizeMax) := by
  unfold Overflow.mulUsize at h
  split at h
  next hfits =>
    cases h
    exact ⟨(Nat.mod_eq_of_lt (Nat.lt_succ_of_le hfits)).symm, iff_of_true rfl hfits⟩
  next hover =>
    cases ov with
    | panics => cases h
    | wraps =>
        cases h
        have hlt : a * b % (width.usizeMax + 1) < width.usizeMax + 1 :=
          Nat.mod_lt _ (Nat.succ_pos _)
        exact ⟨rfl, iff_of_false (by omega) hover⟩

namespace NodeConfig
variable {ρ υ : Type}

def peers (c : NodeConfig ρ) : List SocketAddr := c.fixedPeers.getD []

/-- The configuration up to `None` and an empty list of fixed peers. -/
def listed (c : NodeConfig ρ) : NodeConfig ρ := { c with fixedPeers := some c.peers }

def Differs (a b : NodeConfig ρ) : Prop := a.listed ≠ b.listed

/-- The fields that reach a part unchanged. -/
def seen (c : NodeConfig ρ) : NodeConfig ρ :=
  { c.listed with assumeValid := none, mempoolSize := 0 }

/-- What the documentation of `assume_valid` asks of the chain state. -/
def assumeValidArg (c : NodeConfig ρ) : AssumeValidArg :=
  c.assumeValid.elim .disabled .userInput

theorem fixedPeers_flatten (c : NodeConfig ρ) : c.fixedPeers.toList.flatten = c.peers := by
  unfold peers
  cases c.fixedPeers <;> simp

end NodeConfig

theorem texts_eq_iff {xs ys : List SocketAddr} :
    xs.map SocketAddr.text = ys.map SocketAddr.text ↔ xs = ys :=
  List.map_inj_right fun x y h => by cases x; cases y; exact congrArg _ h

theorem optional_eq_iff {υ : Type} {p q : Bool} {u : υ} :
    (if p then some u else none) = (if q then some u else none) ↔ p = q := by
  cases p <;> cases q <;> simp

section parts
variable {ρ υ : Type} {getAssumeUtreexo : Network → υ}

theorem NodeConfig.parts_seen (c : NodeConfig ρ) (bytes : Nat) :
    c.seen.parts getAssumeUtreexo bytes = c.parts getAssumeUtreexo bytes := by
  simp only [parts, UtreexoNodeConfig.ofNodeConfig, fixedPeers_flatten]
  rfl

/-- Each field but two can be read off the parts. -/
theorem NodeConfig.seen_eq_of_parts {a b : NodeConfig ρ} {x y : Nat}
    (h : a.parts getAssumeUtreexo x = b.parts getAssumeUtreexo y) : a.seen = b.seen := by
  simp only [parts, UtreexoNodeConfig.ofNodeConfig, fixedPeers_flatten, Parts.mk.injEq,
    UtreexoNodeConfig.mk.injEq, Prod.mk.injEq, texts_eq_iff] at h
  obtain ⟨⟨hnetwork, -⟩, -, -, -, ⟨-, hpowfps, -, hpeers, hbanscore, hdatadir, hproxy,
    hutreexo, hbackfill, -, hagent, hfallback, hseeds⟩, hsize, hnets⟩ := h
  rw [hnetwork, optional_eq_iff] at hutreexo
  simp only [seen, listed, hnetwork, hpowfps, hpeers, hbanscore, hdatadir, hproxy, hutreexo,
    hbackfill, hagent, hfallback, hseeds, hsize, hnets]

theorem NodeConfig.parts_eq_iff {a b : NodeConfig ρ} {x y : Nat} :
    a.parts getAssumeUtreexo x = b.parts getAssumeUtreexo y ↔ a.seen = b.seen ∧ x = y := by
  constructor
  · intro h
    exact ⟨seen_eq_of_parts h, congrArg Parts.mempoolSizeBytes h⟩
  · rintro ⟨hseen, rfl⟩
    rw [← a.parts_seen, ← b.parts_seen, hseen]

variable {ov : Overflow} {width : PointerWidth} {env env' : BuildEnv ρ υ} {a b : Builder ρ}
  {n m : BuiltNode ρ υ}

theorem Builder.parts_eq_iff (hn : a.build getAssumeUtreexo ov width env = .ok n)
    (hm : b.build getAssumeUtreexo ov width env' = .ok m) :
    n.parts = m.parts ↔ a.config.seen = b.config.seen ∧
      a.config.mempoolSize ≡ b.config.mempoolSize [MOD width.mempoolPeriod] := by
  obtain ⟨-, -, -, -, -, x, hx, rfl⟩ := build_eq_ok.mp hn
  obtain ⟨-, -, -, -, -, y, hy, rfl⟩ := build_eq_ok.mp hm
  rw [NodeConfig.parts_eq_iff, (Overflow.mulUsize_eq_some hx).1,
    (Overflow.mulUsize_eq_some hy).1]
  exact and_congr_right' (bytes_modEq_iff width _ _)

theorem Builder.chainState_hardcoded (hn : a.build getAssumeUtreexo ov width env = .ok n) :
    n.parts.chainState = (a.config.network, .hardcoded) := by
  obtain ⟨-, -, -, -, -, x, -, rfl⟩ := build_eq_ok.mp hn
  rfl

theorem NodeConfig.assumeValidArg_ne_hardcoded (c : NodeConfig ρ) :
    c.assumeValidArg ≠ .hardcoded := by
  unfold assumeValidArg
  cases c.assumeValid <;> simp

theorem Builder.mempoolSizeBytes_iff (hn : a.build getAssumeUtreexo ov width env = .ok n) :
    n.parts.mempoolSizeBytes = a.config.mempoolSize * bytesPerMb ↔
      a.config.mempoolSize * bytesPerMb ≤ width.usizeMax := by
  obtain ⟨-, -, -, -, -, x, hx, rfl⟩ := build_eq_ok.mp hn
  exact (Overflow.mulUsize_eq_some hx).2

/-- Two builds hand over different data for configurations that differ exactly if these
differ in a field that reaches a part, or their mempool sizes do not wrap to the same
bytes. The assume-valid argument is never the documented one, and the bytes of the mempool
are its size exactly if that fits. -/
theorem builder_faithful_iff (hn : a.build getAssumeUtreexo ov width env = .ok n)
    (hm : b.build getAssumeUtreexo ov width env' = .ok m) :
    ((a.config.Differs b.config → n.parts ≠ m.parts) ↔
      (a.config.Differs b.config → a.config.seen ≠ b.config.seen ∨
        ¬ a.config.mempoolSize ≡ b.config.mempoolSize [MOD width.mempoolPeriod])) ∧
    n.parts.chainState.2 ≠ a.config.assumeValidArg ∧
    (n.parts.mempoolSizeBytes = a.config.mempoolSize * bytesPerMb ↔
      a.config.mempoolSize * bytesPerMb ≤ width.usizeMax) := by
  refine ⟨imp_congr_right fun _ => ?_, ?_, Builder.mempoolSizeBytes_iff hn⟩
  · rw [Ne, Builder.parts_eq_iff hn hm, not_and_or]
  · rw [Builder.chainState_hardcoded hn]
    exact a.config.assumeValidArg_ne_hardcoded.symm

end parts

section examples

/-- Parts that all start, the assume-utreexo value of a network being its name. -/
def startingParts : BuildEnv String String where
  createDirAll := fun _ => .ok ()
  chainStore := fun _ => .ok ()
  chainState := fun _ => .ok ()
  utreexoNode := fun _ => .ok ()

def defaultBuilder : Builder String := .new "bdk_floresta" ["IPv4", "IPv6"]

/-- The default configuration with another assume-valid block or mempool size. -/
def configured (assumeValid : Option BlockHash) (mempoolSize : Nat) : Builder String :=
  defaultBuilder.withConfig { defaultBuilder.config with assumeValid, mempoolSize }

theorem configured_builds {ov : Overflow} {width : PointerWidth} {mempoolSize bytes : Nat}
    (h : ov.mulUsize width mempoolSize bytesPerMb = some bytes) (assumeValid : Option BlockHash) :
    (configured assumeValid mempoolSize).build Network.display ov width startingParts =
      .ok ⟨(configured assumeValid mempoolSize).config,
        (configured assumeValid mempoolSize).config.parts Network.display bytes, .built⟩ :=
  Builder.build_eq_ok.mpr ⟨rfl, rfl, rfl, rfl, rfl, bytes, h, rfl⟩

/-- Two mempool sizes below the limit, and another assume-valid block. -/
theorem builder_faithful_iff_configured :
    (((configured none 100).config.Differs (configured (some 7) 200).config →
      (configured none 100).config.parts Network.display 100000000 ≠
        (configured (some 7) 200).config.parts Network.display 200000000) ↔
      ((configured none 100).config.Differs (configured (some 7) 200).config →
        (configured none 100).config.seen ≠ (configured (some 7) 200).config.seen ∨
          ¬ 100 ≡ 200 [MOD PointerWidth.bits64.mempoolPeriod])) := by
  have hn : Overflow.mulUsize .panics .bits64 100 bytesPerMb = some 100000000 := by decide
  have hm : Overflow.mulUsize .panics .bits64 200 bytesPerMb = some 200000000 := by decide
  exact (builder_faithful_iff (configured_builds hn none) (configured_builds hm (some 7))).1

/-- A debug build makes the same parts for no assume-valid block and for one; a release
build starts with a mempool of no bytes for a size that a 64-bit `usize` holds. -/
theorem builds_unfaithful :
    ∃ n m k : BuiltNode String String,
      (configured none 100).build Network.display .panics .bits64 startingParts = .ok n ∧
      (configured (some 7) 100).build Network.display .panics .bits64 startingParts = .ok m ∧
      (configured none 288230376151711744).build Network.display .wraps .bits64 startingParts =
        .ok k ∧
      n.config.Differs m.config ∧ n.parts = m.parts ∧
      n.config.assumeValidArg = .disabled ∧ n.parts.chainState.2 = .hardcoded ∧
      m.config.assumeValidArg = .userInput 7 ∧ m.parts.chainState.2 = .hardcoded ∧
      k.config.mempoolSize = 288230376151711744 ∧ k.parts.mempoolSizeBytes = 0 := by
  have hdebug : Overflow.mulUsize .panics .bits64 100 bytesPerMb = some 100000000 := by decide
  have hrelease : Overflow.mulUsize .wraps .bits64 288230376151711744 bytesPerMb = some 0 := by
    decide
  refine ⟨_, _, _, configured_builds hdebug none, configured_builds hdebug (some 7),
    configured_builds hrelease none, fun heq => ?_, rfl, rfl, rfl, rfl, rfl, rfl, rfl⟩
  cases congrArg NodeConfig.assumeValid heq

end examples
end BdkFloresta
