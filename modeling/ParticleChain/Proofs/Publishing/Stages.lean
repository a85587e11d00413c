import ParticleChain.Proofs.Publishing.Files
import ParticleChain.Proofs.Registry.Runs

/-!
# What the stages of publishing do

For each stage, what follows from its success and what from its failure. A record that is published
has passed all stages (`Passes`); one that is not has failed in one of them, after it had passed the
others (`Fails`).
-/

namespace ParticleChain.Publishing

open Artifact (Kind Record)

variable {ε ε' α β : Type} {u : Setup} {k : Kind} {r : Record k} {owner a : Address} {e : Error}
  {s s' s'' : Site}

/-! ## Work and its end -/

/-- The site after work, whether it failed or not. -/
def final : EStateM.Result ε Site α → Site
  | .ok _ s | .error _ s => s

theorem bind_eq_ok {x : Work ε α} {f : α → Work ε β} {b : β} (h : (x >>= f) s = .ok b s') :
    ∃ a s₁, x s = .ok a s₁ ∧ f a s₁ = .ok b s' := by
  rw [show (x >>= f) s = EStateM.bind x f s from rfl, EStateM.bind] at h
  split at h
  · rename_i a s₁ hx
    exact ⟨a, s₁, hx, h⟩
  · cases h

theorem bind_eq_error {x : Work ε α} {f : α → Work ε β} {e : ε}
    (h : (x >>= f) s = .error e s') :
    x s = .error e s' ∨ ∃ a s₁, x s = .ok a s₁ ∧ f a s₁ = .error e s' := by
  rw [show (x >>= f) s = EStateM.bind x f s from rfl, EStateM.bind] at h
  split at h
  · rename_i a s₁ hx
    exact .inr ⟨a, s₁, hx, h⟩
  · rename_i e₁ s₁ hx
    cases h
    exact .inl hx

theorem bind_of_ok {x : Work ε α} {f : α → Work ε β} {a : α} (h : x s = .ok a s') :
    (x >>= f) s = f a s' := by
  rw [show (x >>= f) s = EStateM.bind x f s from rfl, EStateM.bind, h]

theorem bind_of_error {x : Work ε α} {f : α → Work ε β} {e : ε} (h : x s = .error e s') :
    (x >>= f) s = .error e s' := by
  rw [show (x >>= f) s = EStateM.bind x f s from rfl, EStateM.bind, h]

theorem askDisk_ok {f : Disk → Except ε α} {a : α} (h : Site.askDisk f s = .ok a s') :
    s' = s ∧ f s.disk = .ok a := by
  unfold Site.askDisk at h
  split at h
  · rename_i hf
    cases h
    exact ⟨rfl, hf⟩
  · cases h

theorem onNode_ok {f : Node → Except ε α × Node} {a : α} (h : Site.onNode f s = .ok a s') :
    ∃ n, f s.node = (.ok a, n) ∧ s' = { s with node := n } := by
  unfold Site.onNode at h
  split at h
  · rename_i hf
    cases h
    exact ⟨_, hf, rfl⟩
  · cases h

theorem askDisk_of_ok {f : Disk → Except ε α} {a : α} (h : f s.disk = .ok a) :
    Site.askDisk f s = .ok a s := by
  rw [Site.askDisk, h]

theorem onNode_of_ok {f : Node → Except ε α × Node} {a : α} {n : Node}
    (h : f s.node = (.ok a, n)) : Site.onNode f s = .ok a { s with node := n } := by
  rw [Site.onNode, h]

theorem askDisk_error {f : Disk → Except ε α} {e : ε} (h : Site.askDisk f s = .error e s') :
    s' = s := by
  unfold Site.askDisk at h
  split at h
  · cases h
  · cases h
    rfl

theorem mapError_eq_ok {x : Except ε α} {f : ε → ε'} {a : α} :
    x.mapError f = .ok a ↔ x = .ok a := by
  cases x with
  | ok b =>
    constructor
    · intro h
      cases h
      rfl
    · intro h
      cases h
      rfl
  | error e =>
    constructor
    · intro h
      cases h
    · intro h
      cases h

/-! ## Work on the node -/

/-- The same but for the node. -/
structure SameStores (s s' : Site) : Prop where
  disk : s'.disk = s.disk
  registry : s'.registry = s.registry

theorem SameStores.refl (s : Site) : SameStores s s := ⟨rfl, rfl⟩

theorem onNode_error {f : Node → Except ε α × Node} {e : ε} (h : Site.onNode f s = .error e s') :
    SameStores s s' := by
  unfold Site.onNode at h
  split at h
  · cases h
  · cases h
    exact ⟨rfl, rfl⟩

theorem ensureRunning_ok {closed : ε} (h : Site.ensureRunning closed s = .ok () s') :
    s' = s ∧ s.node.isRunning = true := by
  unfold Site.ensureRunning at h
  split at h
  · rename_i hr
    cases h
    exact ⟨rfl, hr⟩
  · cases h

theorem ensureRunning_error {closed e : ε} (h : Site.ensureRunning closed s = .error e s') :
    e = closed ∧ s' = s ∧ s.node.isRunning = false := by
  unfold Site.ensureRunning at h
  split at h
  · cases h
  · rename_i hr
    cases h
    exact ⟨rfl, rfl, Bool.eq_false_iff.2 hr⟩

theorem ensureRunning_of_running (closed : ε) (h : s.node.isRunning = true) :
    Site.ensureRunning closed s = .ok () s := by
  rw [Site.ensureRunning, if_pos h]

theorem ensureRunning_of_stopped (closed : ε) (h : s.node.isRunning = false) :
    Site.ensureRunning closed s = .error closed s := by
  rw [Site.ensureRunning, if_neg (Bool.eq_false_iff.1 h)]

theorem siteCompile_of_running (u : Setup) (j : Compiler.Job) (h : s.node.isRunning = true) :
    Site.compile u j s =
      Site.onDisk (Compiler.run u.compiler u.searchPath u.config.compiler j) s :=
  bind_of_ok (ensureRunning_of_running Compiler.Error.closed h)

theorem siteCompile_of_stopped (u : Setup) (j : Compiler.Job) (h : s.node.isRunning = false) :
    Site.compile u j s = .error .closed s :=
  bind_of_error (ensureRunning_of_stopped Compiler.Error.closed h)

/-- Nothing is deployed where there is no node. -/
theorem running_of_deploy {n n' : Node} {text : String} {args : ByteArray} {sender a : Address}
    {gas value : Nat} (h : n.deploy text args sender gas value = (.ok a, n')) :
    n.isRunning = true := by
  unfold Node.deploy at h
  split at h
  · cases h
  · rename_i hn
    simpa using hn

theorem sameStores_deployFile {file : Path} {args : ByteArray} {sender : Address} {gas value : Nat}
    {e : Node.Error} (h : Site.deployFile file args sender gas value s = .error e s') :
    SameStores s s' := by
  obtain h | ⟨_, s₁, hrunning, hread⟩ := bind_eq_error h
  · rw [(ensureRunning_error h).2.1]
    exact .refl s
  rw [(ensureRunning_ok hrunning).1] at hread
  obtain h | ⟨text, s₂, hask, hdeploy⟩ := bind_eq_error hread
  · rw [askDisk_error h]
    exact .refl s
  · rw [(askDisk_ok hask).1] at hdeploy
    exact onNode_error (f := fun n => n.deploy text args sender gas value) hdeploy

/-! ## Stages -/

/-- What the compiler is asked for. -/
def contractJob (c : Config) (k : Kind) (name : String) : Compiler.Job :=
  ⟨sourceFile c k name, buildDirectory c k, some c.contracts, some c.modules⟩

/-- How the compiler ends on a disk, and the disk after it. -/
def runCompiler (u : Setup) (k : Kind) (name : String) (d : Disk) :
    Except Compiler.Error Unit × Disk :=
  Compiler.run u.compiler u.searchPath u.config.compiler (contractJob u.config k name) d

theorem build_cases {x : EStateM.Result Error Site Unit} (h : build u r s = x) :
    s.disk.has (binaryFile u.config k r.name) = true ∧ x = .ok () s ∨
      s.disk.has (binaryFile u.config k r.name) = false ∧ compile u r s = x := by
  unfold build at h
  split at h
  · rename_i hb
    exact .inl ⟨hb, h.symm⟩
  · rename_i hb
    exact .inr ⟨Bool.eq_false_iff.2 hb, h⟩

/-- Compiling on a node, once the source is written. -/
theorem compile_eq {text : String} {d : Disk} (h : r.definition.source = .ok text)
    (hw : s.disk.writeText (sourceFile u.config k r.name) text = .ok d)
    (hn : s.node.isRunning = true) : compile u r s =
      let s' := withoutSource u.config k r.name { s with disk := (runCompiler u k r.name d).2 }
      match (runCompiler u k r.name d).1 with
      | .error reason => .error (.compiler k r.name reason) s'
      | .ok () => if s'.disk.has (binaryFile u.config k r.name) then .ok () s'
        else .error (.noBinary r.name) (withoutBuild u.config k r.name s') := by
  unfold compile
  dsimp only
  rw [h]
  dsimp only
  rw [hw]
  dsimp only
  rw [siteCompile_of_running (s := { s with disk := d }) u _ hn]
  unfold Site.onDisk runCompiler contractJob
  dsimp only
  generalize Compiler.run u.compiler u.searchPath u.config.compiler _ d = x
  obtain ⟨_ | _, d'⟩ := x <;> rfl

/-- Without a node, the source is taken away again. -/
theorem compile_of_stopped {text : String} {d : Disk} (h : r.definition.source = .ok text)
    (hw : s.disk.writeText (sourceFile u.config k r.name) text = .ok d)
    (hn : s.node.isRunning = false) : compile u r s =
      .error (.compiler k r.name .closed)
        (withoutSource u.config k r.name { s with disk := d }) := by
  unfold compile
  dsimp only
  rw [h]
  dsimp only
  rw [hw]
  dsimp only
  rw [siteCompile_of_stopped (s := { s with disk := d }) u _ hn]

/-- How compiling ends: before the compiler is run, with the compiler, or after it. -/
inductive Compiles (u : Setup) (r : Record k) (s : Site) : EStateM.Result Error Site Unit → Prop
  | source {reason} (h : r.definition.source = .error reason) :
    Compiles u r s (.error (.source reason) s)
  | unwritable {text reason} (h : r.definition.source = .ok text)
      (hw : s.disk.writeText (sourceFile u.config k r.name) text = .error reason) :
    Compiles u r s (.error (.unwritable (sourceFile u.config k r.name) reason) s)
  | stopped {text d} (h : r.definition.source = .ok text)
      (hw : s.disk.writeText (sourceFile u.config k r.name) text = .ok d)
      (hn : s.node.isRunning = false) :
    Compiles u r s (.error (.compiler k r.name .closed)
      (withoutSource u.config k r.name { s with disk := d }))
  | compiler {text d reason} (h : r.definition.source = .ok text)
      (hw : s.disk.writeText (sourceFile u.config k r.name) text = .ok d)
      (hr : (runCompiler u k r.name d).1 = .error reason) :
    Compiles u r s (.error (.compiler k r.name reason)
      (withoutSource u.config k r.name { s with disk := (runCompiler u k r.name d).2 }))
  | noBinary {text d} (h : r.definition.source = .ok text)
      (hw : s.disk.writeText (sourceFile u.config k r.name) text = .ok d)
      (hr : (runCompiler u k r.name d).1 = .ok ()) :
    Compiles u r s (.error (.noBinary r.name) (withoutBuild u.config k r.name
      (withoutSource u.config k r.name { s with disk := (runCompiler u k r.name d).2 })))
  | done {text d} (h : r.definition.source = .ok text)
      (hw : s.disk.writeText (sourceFile u.config k r.name) text = .ok d)
      (hr : (runCompiler u k r.name d).1 = .ok ())
      (hb : ((runCompiler u k r.name d).2.withoutFile (sourceFile u.config k r.name)).has
        (binaryFile u.config k r.name) = true) :
    Compiles u r s (.ok ()
      (withoutSource u.config k r.name { s with disk := (runCompiler u k r.name d).2 }))

theorem compiles (u : Setup) (r : Record k) (s : Site) : Compiles u r s (compile u r s) := by
  cases h : r.definition.source with
  | error reason =>
    rw [show compile u r s = .error (.source reason) s by simp [compile, h]]
    exact .source h
  | ok text =>
    cases hw : s.disk.writeText (sourceFile u.config k r.name) text with
    | error reason =>
      rw [show compile u r s = .error (.unwritable (sourceFile u.config k r.name) reason) s by
        simp [compile, h, hw]]
      exact .unwritable h hw
    | ok d =>
      cases hn : s.node.isRunning with
      | false =>
        rw [compile_of_stopped h hw hn]
        exact .stopped h hw hn
      | true =>
        rw [compile_eq h hw hn]
        dsimp only
        cases hr : (runCompiler u k r.name d).1 with
        | error reason => exact .compiler h hw hr
        | ok =>
          dsimp only
          split
          · rename_i hb
            exact .done h hw hr hb
          · exact .noBinary h hw hr

/-- What holds of every removal of a build, and of everything that happens to a disk with the source
on it if the compiler is not to blame, holds of building, if it is kept from step to step. -/
theorem rel_build {R : Site → Site → Prop} (hrefl : ∀ s, R s s)
    (htrans : ∀ {s s' s''}, R s s' → R s' s'' → R s s'')
    (hdropped : ∀ s, R s (withoutBuild u.config k r.name s))
    (hcompiled : ∀ {s : Site} {text d d'},
      s.disk.writeText (sourceFile u.config k r.name) text = .ok d →
        (∀ p, u.compiler.LeavesOn (contractJob u.config k r.name) p → Disk.Agree p d d') →
        R s (withoutSource u.config k r.name { s with disk := d' }))
    (s : Site) : R s (final (build u r s)) := by
  obtain ⟨-, h⟩ | ⟨-, h⟩ := build_cases (u := u) (r := r) (s := s) rfl
  · rw [h]
    exact hrefl s
  · rw [← h]
    have hcompiles := compiles u r s
    generalize compile u r s = x at hcompiles ⊢
    have hrun (d : Disk) (p : Path)
        (hp : u.compiler.LeavesOn (contractJob u.config k r.name) p) :
        Disk.Agree p d (runCompiler u k r.name d).2 :=
      Compiler.agree_run hp u.searchPath u.config.compiler d
    cases hcompiles with
    | source h => exact hrefl s
    | unwritable h hw => exact hrefl s
    | stopped h hw hn => exact hcompiled hw fun p _ => .refl p _
    | compiler h hw hr => exact hcompiled hw (hrun _)
    | noBinary h hw hr => exact htrans (hcompiled hw (hrun _)) (hdropped _)
    | done h hw hr hb => exact hcompiled hw (hrun _)

/-- Building is work on the disk. -/
theorem node_of_build (h : build u r s = .ok () s') : s'.node = s.node := by
  obtain ⟨-, he⟩ | ⟨-, h⟩ := build_cases h
  · cases he
    rfl
  · have hcompiles := compiles u r s
    rw [h] at hcompiles
    cases hcompiles with
    | done => rfl

/-- A node on which an address has an account, unless it has stopped. -/
def withAccount (a : Address) (n : Node) : Node :=
  match n.addAccount a n.gasLimit with
  | .ok n => n
  | .error _ => n

def funded (owner : Address) (s : Site) : Site := { s with node := withAccount owner s.node }

theorem fund_eq (owner : Address) (s : Site) : fund owner s =
    if s.node.isRunning then .ok () (funded owner s) else .error (.unfunded .closed) s := by
  unfold fund EStateM.adaptExcept Site.ensureAccount funded withAccount Node.addAccount
  cases s.node.isRunning with
  | false => rfl
  | true => cases s.node.world.account? owner <;> rfl

theorem fund_ok (h : fund owner s = .ok () s') : s' = funded owner s := by
  rw [fund_eq] at h
  split at h
  · cases h
    rfl
  · cases h

theorem fund_of_running (owner : Address) (h : s.node.isRunning = true) :
    fund owner s = .ok () (funded owner s) := by
  rw [fund_eq, if_pos h]

/-- Only a node that has stopped keeps an owner from having an account. -/
theorem fund_error (h : fund owner s = .error e s') :
    e = .unfunded .closed ∧ s' = s ∧ s.node.isRunning = false := by
  rw [fund_eq] at h
  split at h
  · cases h
  · rename_i hn
    cases h
    exact ⟨rfl, rfl, Bool.eq_false_iff.2 hn⟩

/-- Only the world of a node changes when an account is added. -/
theorem withAccount_eq (a : Address) (n : Node) : ∃ w, withAccount a n = { n with world := w } := by
  unfold withAccount
  split
  · rename_i n' h
    unfold Node.addAccount at h
    split at h
    · cases h
    · split at h
      · cases h
      · cases h
        exact ⟨_, rfl⟩
  · exact ⟨n.world, rfl⟩

theorem sameStores_funded (owner : Address) (s : Site) : SameStores s (funded owner s) :=
  ⟨rfl, rfl⟩

theorem create_ok (h : create u r owner s = .ok a s') :
    ∃ text n, s.disk.readText (binaryFile u.config k r.name) = .ok text ∧
      s.node.deploy text (Abi.encodeArgs [.address s.node.registry]) owner s.node.gasLimit 0 =
        (.ok a, n) ∧ s' = { s with node := n } := by
  unfold create at h
  dsimp only at h
  split at h
  · rename_i hd
    cases h
    obtain ⟨_, s₁, hrunning, hd⟩ := bind_eq_ok hd
    obtain ⟨rfl, -⟩ := ensureRunning_ok hrunning
    obtain ⟨text, s₂, hask, hd⟩ := bind_eq_ok hd
    obtain ⟨rfl, ht⟩ := askDisk_ok hask
    obtain ⟨n, hn, rfl⟩ := onNode_ok hd
    exact ⟨text, n, mapError_eq_ok.1 ht, hn, rfl⟩
  · split at h
    · cases h
    · split at h <;> cases h

theorem create_of_deploy {text : String} {n : Node}
    (ht : s.disk.readText (binaryFile u.config k r.name) = .ok text)
    (hd : s.node.deploy text (Abi.encodeArgs [.address s.node.registry]) owner s.node.gasLimit 0 =
      (.ok a, n)) : create u r owner s = .ok a { s with node := n } := by
  have hfile : Site.deployFile (binaryFile u.config k r.name)
      (Abi.encodeArgs [.address s.node.registry]) owner s.node.gasLimit 0 s =
        .ok a { s with node := n } := by
    have hn : s.node.isRunning = true := running_of_deploy hd
    unfold Site.deployFile
    rw [bind_of_ok (ensureRunning_of_running Node.Error.closed hn),
      bind_of_ok (askDisk_of_ok (mapError_eq_ok.2 ht))]
    exact onNode_of_ok hd
  unfold create
  dsimp only
  rw [hfile]

/-- The failures after which there is no build left: all but those of the compiler itself and the
contract's word that the name is taken. -/
def Clears (k : Kind) : Error → Prop
  | .compiler .. => False
  | .reverted reason => reason.kind ≠ k.alreadyRegistered
  | _ => True

/-- The build is removed; but for the node, nothing else has changed. -/
structure BuildDropped (u : Setup) (k : Kind) (name : String) (s s' : Site) : Prop where
  disk : s'.disk = dropBuild u.config k name s.disk
  registry : s'.registry = s.registry

theorem SameStores.buildDropped (h : SameStores s s') (u : Setup) (k : Kind) (name : String) :
    BuildDropped u k name s (withoutBuild u.config k name s') :=
  ⟨congrArg (dropBuild u.config k name) h.disk, h.registry⟩

/-- A contract that cannot be created takes the build with it, unless the name is taken. -/
theorem create_error (h : create u r owner s = .error e s') :
    (∃ reason, e = .reverted reason ∧ reason.kind = k.alreadyRegistered ∧ SameStores s s') ∨
      Clears k e ∧ BuildDropped u k r.name s s' := by
  unfold create at h
  dsimp only at h
  split at h
  · cases h
  · rename_i hd
    have hsame := sameStores_deployFile hd
    split at h
    · cases h
      exact .inr ⟨trivial, hsame.buildDropped u k r.name⟩
    · rename_i reason _
      split at h
      · rename_i hkind
        cases h
        exact .inl ⟨reason, rfl, hkind, hsame⟩
      · rename_i hkind
        cases h
        exact .inr ⟨hkind, hsame.buildDropped u k r.name⟩

/-- The node on which the registry contract can pay for a call. -/
def toppedUp (n : Node) : Node :=
  match n.setBalance n.registry n.gasLimit with
  | .ok n => n
  | .error _ => n

/-- Asks a contract for its owner, once the registry contract can pay. -/
def askOwner (contract : Address) (s : Site) : Except Node.Error ByteArray × Node :=
  (toppedUp s.node).call s.node.registry contract (Abi.encodeCall "getOwner()" []) ownerGas 0

theorem checkOwner_eq (contract owner : Address) (s : Site) : checkOwner contract owner s =
    let s' := { s with node := (askOwner contract s).2 }
    match (askOwner contract s).1 with
    | .error reason => .error (.ownerCall reason) s'
    | .ok output => match Abi.readAddress output 0 with
      | .error reason => .error (.ownerOutput reason) s'
      | .ok actual =>
        if actual = owner then .ok () s' else .error (.foreignOwner contract actual owner) s' := by
  change (EStateM.bind (EStateM.adaptExcept Error.ownerCall (Site.onNode fun n =>
    n.call s.node.registry contract (Abi.encodeCall "getOwner()" []) ownerGas 0)) _)
    { s with node := toppedUp s.node } = _
  unfold EStateM.bind EStateM.adaptExcept Site.onNode askOwner
  dsimp only
  generalize (toppedUp s.node).call s.node.registry contract (Abi.encodeCall "getOwner()" [])
    ownerGas 0 = x
  obtain ⟨_ | output, n⟩ := x
  · rfl
  · dsimp only
    cases Abi.readAddress output 0 with
    | error reason => rfl
    | ok actual => by_cases ha : actual = owner <;> simp only [ha, if_true, if_false] <;> rfl

theorem verify_ok (h : verify u r a owner s = .ok () s') : ∃ output,
    (askOwner a s).1 = .ok output ∧ Abi.readAddress output 0 = .ok owner ∧
      s' = { s with node := (askOwner a s).2 } := by
  unfold verify elseUndo at h
  rw [checkOwner_eq] at h
  dsimp only at h
  split at h
  · rename_i hc
    cases h
    split at hc
    · cases hc
    · rename_i output ho
      split at hc
      · cases hc
      · rename_i actual hr
        split at hc
        · rename_i ha
          cases hc
          exact ⟨output, ho, ha ▸ hr, rfl⟩
        · cases hc
  · cases h

theorem verify_of_answer {output : ByteArray} (hask : (askOwner a s).1 = .ok output)
    (hr : Abi.readAddress output 0 = .ok owner) :
    verify u r a owner s = .ok () { s with node := (askOwner a s).2 } := by
  unfold verify elseUndo
  rw [checkOwner_eq, hask]
  dsimp only
  rw [hr]
  dsimp only
  rw [if_pos rfl]

theorem verify_error (h : verify u r a owner s = .error e s') :
    Clears k e ∧ BuildDropped u k r.name s s' := by
  unfold verify elseUndo at h
  rw [checkOwner_eq] at h
  dsimp only at h
  split at h
  · cases h
  · rename_i hc
    cases h
    repeat' split at hc
    all_goals cases hc <;> exact ⟨trivial, rfl, rfl⟩

theorem index_ok (h : index u r a s = .ok () s') :
    ∃ t, s.registry.add a r = (.ok (), t) ∧ s' = { s with registry := t } := by
  unfold index at h
  split at h
  · rename_i t ht
    cases h
    exact ⟨t, ht, rfl⟩
  · cases h

theorem index_of_add {t : Registry} (h : s.registry.add a r = (.ok (), t)) :
    index u r a s = .ok () { s with registry := t } := by
  rw [index, h]

/-- A record that is rejected has not changed the registry. -/
theorem index_error (h : index u r a s = .error e s') :
    Clears k e ∧ BuildDropped u k r.name s s' := by
  unfold index at h
  split at h
  · cases h
  · rename_i reason t ht
    cases h
    exact ⟨trivial, rfl, Registry.add_error ht⟩

theorem save_ok (h : save u r a s = .ok () s') :
    ∃ d, saveRecord u.config r s.disk = .ok d ∧ s' = { s with disk := d } := by
  unfold save at h
  split at h
  · rename_i d hd
    cases h
    exact ⟨d, hd, rfl⟩
  · cases h

theorem save_of_saveRecord {d : Disk} (h : saveRecord u.config r s.disk = .ok d) :
    save u r a s = .ok () { s with disk := d } := by
  rw [save, h]

/-- A record that cannot be saved is taken out of the registry again. -/
theorem save_error (h : save u r a s = .error e s') : Clears k e ∧
    BuildDropped u k r.name { s with registry := s.registry.remove k r.name a } s' := by
  unfold save at h
  split at h
  · cases h
  · cases h
    exact ⟨trivial, rfl, rfl⟩

/-! ## All stages -/

/-- A record goes through all stages, from one site to another. -/
inductive Passes (u : Setup) (r : Record k) (owner : Address) (s : Site) (a : Address) (s' : Site) :
    Prop
  | intro {s₁ s₂ s₃ s₄ s₅ : Site} (build : build u r s = .ok () s₁)
      (fund : fund owner s₁ = .ok () s₂) (create : create u r owner s₂ = .ok a s₃)
      (verify : verify u r a owner s₃ = .ok () s₄) (index : index u r a s₄ = .ok () s₅)
      (save : save u r a s₅ = .ok () s')

/-- A record fails in one of the stages. -/
inductive Fails (u : Setup) (r : Record k) (owner : Address) (s : Site) (e : Error) (s' : Site) :
    Prop
  | build (h : build u r s = .error e s')
  | fund {s₁ : Site} (build : build u r s = .ok () s₁) (h : fund owner s₁ = .error e s')
  | create {s₁ s₂ : Site} (build : build u r s = .ok () s₁) (fund : fund owner s₁ = .ok () s₂)
      (h : create u r owner s₂ = .error e s')
  | verify {a : Address} {s₁ s₂ s₃ : Site} (build : build u r s = .ok () s₁)
      (fund : fund owner s₁ = .ok () s₂) (create : create u r owner s₂ = .ok a s₃)
      (h : verify u r a owner s₃ = .error e s')
  | index {a : Address} {s₁ s₂ s₃ s₄ : Site} (build : build u r s = .ok () s₁)
      (fund : fund owner s₁ = .ok () s₂) (create : create u r owner s₂ = .ok a s₃)
      (verify : verify u r a owner s₃ = .ok () s₄) (h : index u r a s₄ = .error e s')
  | save {a : Address} {s₁ s₂ s₃ s₄ s₅ : Site} (build : build u r s = .ok () s₁)
      (fund : fund owner s₁ = .ok () s₂) (create : create u r owner s₂ = .ok a s₃)
      (verify : verify u r a owner s₃ = .ok () s₄) (index : index u r a s₄ = .ok () s₅)
      (h : save u r a s₅ = .error e s')

theorem passes_of_pipeline (h : pipeline u r owner s = .ok a s') : Passes u r owner s a s' := by
  obtain ⟨_, s₁, hbuild, h⟩ := bind_eq_ok h
  obtain ⟨_, s₂, hfund, h⟩ := bind_eq_ok h
  obtain ⟨contract, s₃, hcreate, h⟩ := bind_eq_ok h
  obtain ⟨_, s₄, hverify, h⟩ := bind_eq_ok h
  obtain ⟨_, s₅, hindex, h⟩ := bind_eq_ok h
  obtain ⟨_, s₆, hsave, h⟩ := bind_eq_ok h
  cases h
  exact ⟨hbuild, hfund, hcreate, hverify, hindex, hsave⟩

theorem fails_of_pipeline (h : pipeline u r owner s = .error e s') : Fails u r owner s e s' := by
  obtain h | ⟨_, s₁, hbuild, h⟩ := bind_eq_error h
  · exact .build h
  obtain h | ⟨_, s₂, hfund, h⟩ := bind_eq_error h
  · exact .fund hbuild h
  obtain h | ⟨contract, s₃, hcreate, h⟩ := bind_eq_error h
  · exact .create hbuild hfund h
  obtain h | ⟨_, s₄, hverify, h⟩ := bind_eq_error h
  · exact .verify hbuild hfund hcreate h
  obtain h | ⟨_, s₅, hindex, h⟩ := bind_eq_error h
  · exact .index hbuild hfund hcreate hverify h
  obtain h | ⟨_, s₆, -, h⟩ := bind_eq_error h
  · exact .save hbuild hfund hcreate hverify hindex h
  · cases h

theorem publish_ok (h : publish u r s = .ok a s') :
    ∃ owner, approve r = .ok owner ∧ Passes u r owner s a s' := by
  unfold publish at h
  split at h
  · cases h
  · rename_i owner ho
    exact ⟨owner, ho, passes_of_pipeline h⟩

/-- A record that is not published is not valid, or fails in one of the stages. -/
theorem publish_error (h : publish u r s = .error e s') :
    approve r = .error e ∧ s' = s ∨ ∃ owner, approve r = .ok owner ∧ Fails u r owner s e s' := by
  unfold publish at h
  split at h
  · rename_i he
    cases h
    exact .inl ⟨he, rfl⟩
  · rename_i owner ho
    exact .inr ⟨owner, ho, fails_of_pipeline h⟩

end ParticleChain.Publishing
