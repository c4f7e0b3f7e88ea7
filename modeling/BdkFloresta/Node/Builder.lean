import BdkFloresta.Library.Fallible
import BdkFloresta.Node.Shutdown
import BdkFloresta.Chain.Types

/-!
Building a node. `Builder::build` hands its configuration to the parts of the node: most
fields by the conversion into `UtreexoNodeConfig`, others as arguments of the parts. The
assume-valid block is handed to none of them, and the mempool size is multiplied into
bytes in the arithmetic of the build, which either panics or wraps.
-/

namespace BdkFloresta

/-- The width of `usize`. -/
inductive PointerWidth where
  | bits32
  | bits64
  deriving DecidableEq, Repr

/-- `usize::MAX`. -/
def PointerWidth.usizeMax : PointerWidth → Nat
  | .bits32 => 4294967295
  | .bits64 => 18446744073709551615

/-- `a * b` on `usize`; `none` is the panic. -/
def Overflow.mulUsize (ov : Overflow) (width : PointerWidth) (a b : Nat) : Option Nat :=
  if a * b ≤ width.usizeMax then some (a * b)
  else match ov with
    | .panics => none
    | .wraps => some (a * b % (width.usizeMax + 1))

abbrev PathBuf := String

/-- `Path::join` with a relative name. -/
def PathBuf.join (path : PathBuf) (name : String) : PathBuf :=
  if path = "" ∨ path.toList.getLast? = some '/' then path ++ name else path ++ "/" ++ name

/-- `BYTES_PER_MB`. -/
def bytesPerMb : Nat := 1000000

/-- The configuration of a node, over the networks it may reach. -/
structure NodeConfig (ρ : Type) where
  network : Network
  datadir : PathBuf
  enablePowfps : Bool
  assumeValid : Option BlockHash
  assumeUtreexo : Bool
  performBackfill : Bool
  userAgent : String
  fixedPeers : Option (List SocketAddr)
  maxBanscore : Nat
  socks5Proxy : Option SocketAddr
  disableDnsSeeds : Bool
  allowP2pv1Fallback : Bool
  mempoolSize : Nat
  addressManSize : Option Nat
  reachableNets : List ρ

/-- `NodeConfig::default`, with the user agent of the build. -/
def NodeConfig.default {ρ : Type} (userAgent : String) (supported : List ρ) :
    NodeConfig ρ where
  network := .signet
  datadir := PathBuf.join "./data/\x7b\x7d" Network.signet.display
  enablePowfps := true
  assumeValid := none
  assumeUtreexo := true
  performBackfill := false
  userAgent := userAgent
  fixedPeers := none
  maxBanscore := 100
  socks5Proxy := none
  disableDnsSeeds := false
  allowP2pv1Fallback := true
  mempoolSize := 100
  addressManSize := none
  reachableNets := supported

/-- The configuration of the inner node, over its assume-utreexo values. -/
structure UtreexoNodeConfig (υ : Type) where
  network : Network
  powFraudProofs : Bool
  compactFilters : Bool
  fixedPeers : List String
  maxBanscore : Nat
  datadir : PathBuf
  proxy : Option SocketAddr
  assumeUtreexo : Option υ
  backfill : Bool
  filterStartHeight : Option Nat
  userAgent : String
  allowV1Fallback : Bool
  disableDnsSeeds : Bool

inductive AssumeValidArg where
  | disabled
  | hardcoded
  | userInput (hash : BlockHash)
  deriving DecidableEq, Repr

/-- `BuilderError`. The errors of other crates are carried as their display text. -/
inductive BuilderError where
  | createDirectory (e : String)
  | chainState (e : String)
  | chainStoreInit (e : String)
  | compactBlockFilter (e : String)
  | buildInner (e : String)
  | loggerSetup (e : String)
  | loggerAlreadySetup
  deriving DecidableEq, Repr

def BuilderError.display : BuilderError → String
  | .createDirectory e => s!"Failed to create the data directory: {e}"
  | .chainState e => s!"Failed to create a chainstate: {e}"
  | .chainStoreInit e => s!"Failed to load or create a new chain store: {e}"
  | .compactBlockFilter e => s!"Compact Block Filter error: {e}"
  | .buildInner e => s!"Failed to build the inner node: {e}"
  | .loggerSetup e => s!"Failed to setup the tracing subscriber logger: {e}"
  | .loggerAlreadySetup => "A tracing subscriber logger is already initialized"

section build
variable {ρ υ : Type} (getAssumeUtreexo : Network → υ)

/-- `UtreexoNodeConfig::from`. -/
def UtreexoNodeConfig.ofNodeConfig (value : NodeConfig ρ) : UtreexoNodeConfig υ where
  network := value.network
  powFraudProofs := value.enablePowfps
  compactFilters := true
  fixedPeers := value.fixedPeers.toList.flatten.map SocketAddr.text
  maxBanscore := value.maxBanscore
  datadir := value.datadir
  proxy := value.socks5Proxy
  assumeUtreexo := if value.assumeUtreexo then some (getAssumeUtreexo value.network) else none
  backfill := value.performBackfill
  filterStartHeight := some 0
  userAgent := value.userAgent
  allowV1Fallback := value.allowP2pv1Fallback
  disableDnsSeeds := value.disableDnsSeeds

/-- What the parts of a node are made from. -/
structure Parts (ρ υ : Type) where
  /-- The arguments of `ChainState::open`, the store apart. -/
  chainState : Network × AssumeValidArg
  chainStore : PathBuf
  filterStore : PathBuf
  mempoolSizeBytes : Nat
  utreexoNode : UtreexoNodeConfig υ
  /-- The arguments of `AddressMan::new`. -/
  addressMan : Option Nat × List ρ

/-- What the parts answer. -/
structure BuildEnv (ρ υ : Type) where
  createDirAll : PathBuf → Except String Unit
  chainStore : PathBuf → Except String Unit
  chainState : Network × AssumeValidArg → Except String Unit
  utreexoNode : Parts ρ υ → Except String Unit

inductive BuildFailure where
  | error (e : BuilderError)
  | panicked

def BuildFailure.orPanic {α : Type} (x : Option α) : Except BuildFailure α :=
  x.elim (.error .panicked) .ok

/-- A built node: its own copy of the configuration, its parts and its tasks' state. -/
structure BuiltNode (ρ υ : Type) where
  config : NodeConfig ρ
  parts : Parts ρ υ
  run : NodeRun

/-- `Builder`, a logger being what its `init` answers. -/
structure Builder (ρ : Type) where
  config : NodeConfig ρ
  logger : Option (Except BuilderError Unit)

namespace Builder
variable (ov : Overflow) (width : PointerWidth)

def new (userAgent : String) (supported : List ρ) : Builder ρ :=
  ⟨.default userAgent supported, none⟩

def withConfig (b : Builder ρ) (config : NodeConfig ρ) : Builder ρ := { b with config }

def withLogger (b : Builder ρ) (logger : Except BuilderError Unit) : Builder ρ :=
  { b with logger := some logger }

def build (env : BuildEnv ρ υ) (b : Builder ρ) : Except BuildFailure (BuiltNode ρ υ) := do
  (env.createDirAll b.config.datadir).mapError fun e => .error (.createDirectory e)
  (b.logger.getD (.ok ())).mapError .error
  let chainStore := b.config.datadir.join "chain"
  (env.chainStore chainStore).mapError fun e => .error (.chainStoreInit e)
  -- the source passes this variant whatever `assume_valid` is
  let chainState := (b.config.network, AssumeValidArg.hardcoded)
  (env.chainState chainState).mapError fun e => .error (.chainState e)
  let filterStore := b.config.datadir.join "filters"
  let mempoolSizeBytes ←
    BuildFailure.orPanic (ov.mulUsize width b.config.mempoolSize bytesPerMb)
  let parts := {
    chainState, chainStore, filterStore, mempoolSizeBytes
    utreexoNode := .ofNodeConfig getAssumeUtreexo b.config
    addressMan := (b.config.addressManSize, b.config.reachableNets) }
  (env.utreexoNode parts).mapError fun e => .error (.buildInner e)
  return ⟨b.config, parts, .built⟩

end Builder

/-- All that `Builder.build` hands over, for a mempool of so many bytes. -/
def NodeConfig.parts (config : NodeConfig ρ) (mempoolSizeBytes : Nat) : Parts ρ υ where
  chainState := (config.network, .hardcoded)
  chainStore := config.datadir.join "chain"
  filterStore := config.datadir.join "filters"
  mempoolSizeBytes := mempoolSizeBytes
  utreexoNode := .ofNodeConfig getAssumeUtreexo config
  addressMan := (config.addressManSize, config.reachableNets)

variable {getAssumeUtreexo} {ov : Overflow} {width : PointerWidth} {env : BuildEnv ρ υ}
  {b : Builder ρ} {n : BuiltNode ρ υ}

theorem BuildFailure.orPanic_eq_ok {α : Type} {x : Option α} {a : α} :
    orPanic x = .ok a ↔ x = some a := by
  cases x <;> simp [orPanic]

theorem BuildFailure.orPanic_eq_panicked {α : Type} {x : Option α} :
    orPanic x = .error .panicked ↔ x = none := by
  cases x <;> simp [orPanic]

theorem Builder.build_eq_ok : b.build getAssumeUtreexo ov width env = .ok n ↔
    env.createDirAll b.config.datadir = .ok () ∧ b.logger.getD (.ok ()) = .ok () ∧
      env.chainStore n.parts.chainStore = .ok () ∧ env.chainState n.parts.chainState = .ok () ∧
      env.utreexoNode n.parts = .ok () ∧
      ∃ bytes, ov.mulUsize width b.config.mempoolSize bytesPerMb = some bytes ∧
        n = ⟨b.config, b.config.parts getAssumeUtreexo bytes, .built⟩ := by
  simp only [Builder.build, Fallible.bind_eq_ok, Fallible.mapError_eq_ok,
    BuildFailure.orPanic_eq_ok]
  constructor
  · rintro ⟨_, hdir, _, hlogger, _, hstore, _, hstate, bytes, hbytes, _, hinner, hn⟩
    cases hn
    exact ⟨hdir, hlogger, hstore, hstate, hinner, bytes, hbytes, rfl⟩
  · rintro ⟨hdir, hlogger, hstore, hstate, hinner, bytes, hbytes, rfl⟩
    exact ⟨(), hdir, (), hlogger, (), hstore, (), hstate, bytes, hbytes, (), hinner, rfl⟩

/-- The assume-valid block changes nothing but the configuration that the node keeps. -/
theorem Builder.build_assumeValid (assumeValid : Option BlockHash) :
    (b.withConfig { b.config with assumeValid }).build getAssumeUtreexo ov width env =
      (fun n => { n with config := { n.config with assumeValid } }) <$>
        b.build getAssumeUtreexo ov width env := by
  simp only [Builder.build, map_bind, map_pure]
  rfl

/-- A build that panics has opened the chain state, and its mempool size is too large. -/
theorem Builder.build_panics_iff :
    b.build getAssumeUtreexo ov width env = .error .panicked ↔
      env.createDirAll b.config.datadir = .ok () ∧ b.logger.getD (.ok ()) = .ok () ∧
        env.chainStore (b.config.datadir.join "chain") = .ok () ∧
        env.chainState (b.config.network, .hardcoded) = .ok () ∧
        ov.mulUsize width b.config.mempoolSize bytesPerMb = none := by
  simp only [Builder.build, Fallible.bind_eq_error, Fallible.mapError_eq_ok,
    Fallible.mapError_eq_error, BuildFailure.orPanic_eq_panicked, reduceCtorEq, and_false,
    exists_false, false_or]
  constructor
  · rintro ⟨_, hdir, _, hlogger, _, hstore, _, hstate, hmul | ⟨_, _, _, _, hdone⟩⟩
    · exact ⟨hdir, hlogger, hstore, hstate, hmul⟩
    · cases hdone
  · rintro ⟨hdir, hlogger, hstore, hstate, hmul⟩
    exact ⟨(), hdir, (), hlogger, (), hstore, (), hstate, .inl hmul⟩

end build
end BdkFloresta
