import Mathlib
import ParticleChain.Proofs.Abi.Words
import ParticleChain.Proofs.Artifact.Format
import ParticleChain.Proofs.Evm.Creations
import ParticleChain.Proofs.Evm.Evaluation
import ParticleChain.Proofs.Publishing.Builds
import ParticleChain.Proofs.Publishing.Failures
import ParticleChain.Proofs.Registry.Owners

/-!
# Records that were published

What each stage has found out or left behind is still so when all stages are passed: where the
contract of the record is and what it said about its owner, and what registry and disk have under
its name (`publish_guarantees`). Nothing is assumed of the compiler, of what it makes of the
contract, or of what the chain, the registry and the disk have been through.
-/

namespace ParticleChain.Publishing

open Artifact (Kind Record)

variable {u : Setup} {k : Kind} {r : Record k} {owner a : Address} {s s' : Site}

/-! ## What the stages leave -/

theorem approve_ok (h : approve r = .ok owner) :
    r.definition.validate = .ok () ∧ Address.parse r.owner = .ok owner := by
  unfold approve at h
  split at h
  · cases h
  · rename_i hv
    split at h
    · cases h
    · rename_i ho
      cases h
      exact ⟨hv, ho⟩

/-- A word is all that an address takes as an argument. -/
theorem encodeArgs_address (a : Address) : Abi.encodeArgs [.address a] = a.toWord.toBytes := by
  have hslot : (Abi.Value.address a).slot = .static a.toWord.toBytes := rfl
  rw [Abi.encodeArgs, List.map_singleton, hslot]
  simp only [Abi.Slot.join, Abi.Slot.layout, ByteArray.append_empty]

/-- The contract is created from what the binary holds when it is read. -/
theorem origin_of_create {s₁ s₂ : Site} (hb : build u r s = .ok () s₁)
    (hf : fund owner s₁ = .ok () s₂) (h : create u r owner s₂ = .ok a s') : ∃ text code n,
    s₁.disk.readText (binaryFile u.config k r.name) = .ok text ∧
    Node.parseBytecode text = .ok code ∧
    (funded owner s).node.deploy text s.node.registry.toWord.toBytes owner s.node.gasLimit 0 =
      (.ok a, n) ∧
    a = Evm.create2Address owner Node.salt (code ++ s.node.registry.toWord.toBytes) ∧
    s' = { s₁ with node := n } := by
  obtain rfl := fund_ok hf
  obtain ⟨text, n, htext, hdeploy, rfl⟩ := create_ok h
  have hnode : (funded owner s₁).node = (funded owner s).node := by
    simp only [funded, node_of_build hb]
  obtain ⟨w, hw⟩ := withAccount_eq owner s.node
  have hfunded : (funded owner s).node = { s.node with world := w } := hw
  rw [hnode, encodeArgs_address, show (funded owner s).node.registry = s.node.registry by
    rw [hfunded]; rfl, show (funded owner s).node.gasLimit = s.node.gasLimit by rw [hfunded]]
    at hdeploy
  obtain ⟨code, hcode, ha⟩ := Node.deploy_ok hdeploy
  exact ⟨text, code, n, htext, hcode, hdeploy, ha, rfl⟩

/-- The registry has one record more, and the disk, which has kept what it must, its file. -/
theorem Passes.stored (h : Passes u r owner s a s') : ∃ d, Kept u s.disk d ∧
    s.registry.add a r = (.ok (), s'.registry) ∧ saveRecord u.config r d = .ok s'.disk := by
  obtain @⟨s₁, s₂, s₃, s₄, s₅, hbuild, hfund, hcreate, hverify, hindex, hsave⟩ := h
  have hintact := (((intact_of_build hbuild).trans (intact_of_fund hfund)).trans
    (intact_of_create hcreate)).trans (intact_of_verify hverify)
  obtain ⟨t, ht, rfl⟩ := index_ok hindex
  obtain ⟨d, hd, rfl⟩ := save_ok hsave
  exact ⟨s₄.disk, hintact.disk, hintact.registry ▸ ht, hd⟩

/-- A record that was added is the newest of its name, and the name is its owner's. -/
theorem answers_of_add {x t : Registry} (h : x.add a r = (.ok (), t))
    (ho : Address.parse r.owner = .ok owner) : t.get? k r.name a = some r.definition ∧
    t.newestAddress? k r.name = some a ∧ r.name ∈ t.ownedBy k owner := by
  cases Registry.takes_of_add h with
  | add hn hf hr ho' =>
    rw [ho] at ho'
    cases ho'
    refine ⟨?_, ?_, ?_⟩
    · rw [Registry.get?, Registry.table_setTable, Registry.Table.get?_insert, if_pos ⟨rfl, rfl⟩]
      rfl
    · rw [Registry.newestAddress?, Registry.table_setTable, Registry.Table.newestAddress?_insert,
        if_pos rfl]
    · rw [Registry.ownedBy, Registry.table_setTable, Std.TreeSet.mem_toList]
      exact (Registry.Table.mem_ownedBy_insert _ a owner r owner r.name).2 (.inl ⟨rfl, rfl⟩)

/-- A record that was published is valid. Its contract is where its owner, the salt and the init
code say: what the binary holds once there is a build, and the word of the registry contract. Asked
for its owner after that, the contract has answered with the word of the owner's address. The
registry has the record at that address as the newest of its name, and the name is its owner's; the
file of the record is read back as the record, and no source is left that was not there, provided
that the compiler itself leaves it alone. -/
theorem publish_guarantees (u : Setup) (r : Record k) (s s' : Site) (a : Address)
    (h : publish u r s = .ok a s') :
    r.definition.validate = .ok () ∧ ∃ owner, Address.parse r.owner = .ok owner ∧
    (∃ s₁ text code n output, build u r s = .ok () s₁ ∧
      s₁.disk.readText (binaryFile u.config k r.name) = .ok text ∧
      Node.parseBytecode text = .ok code ∧
      (funded owner s).node.deploy text s.node.registry.toWord.toBytes owner s.node.gasLimit 0 =
        (.ok a, n) ∧
      a = Evm.create2Address owner Node.salt (code ++ s.node.registry.toWord.toBytes) ∧
      (toppedUp n).call n.registry a (Abi.encodeCall "getOwner()" []) ownerGas 0 =
        (.ok output, s'.node) ∧
      32 ≤ output.size ∧ output.extract 0 32 = Bytes.zeros 12 ++ owner.toBytes) ∧
    s'.registry.get? k r.name a = some r.definition ∧
    s'.registry.newestAddress? k r.name = some a ∧ r.name ∈ s'.registry.ownedBy k owner ∧
    (∃ text, s'.disk.readText (recordFile u.config k r.name) = .ok text ∧
      Record.parse? text = some r) ∧
    ∀ l name, u.compiler.Leaves (sourceFile u.config l name) →
      s'.disk.has (sourceFile u.config l name) = true →
        s.disk.has (sourceFile u.config l name) = true := by
  obtain ⟨owner, happrove, hpasses⟩ := publish_ok h
  obtain ⟨hvalid, howner⟩ := approve_ok happrove
  obtain ⟨d, hkept, hadd, hsave⟩ := hpasses.stored
  obtain ⟨hget, hnewest, howned⟩ := answers_of_add hadd howner
  refine ⟨hvalid, owner, howner, ?contract, hget, hnewest, howned,
    ⟨r.render, Disk.readText_of_look (look_saveRecord hsave), r.parse?_render⟩,
    fun l name hc hhas => hkept.sources l name hc ?source⟩
  case contract =>
    obtain @⟨s₁, s₂, s₃, s₄, s₅, hbuild, hfund, hcreate, hverify, hindex, hsave⟩ := hpasses
    obtain ⟨text, code, n, htext, hcode, hdeploy, ha, rfl⟩ := origin_of_create hbuild hfund hcreate
    obtain ⟨output, hask, hread, rfl⟩ := verify_ok hverify
    obtain ⟨t, -, rfl⟩ := index_ok hindex
    obtain ⟨d, -, rfl⟩ := save_ok hsave
    obtain ⟨hsize, hword⟩ := Abi.readAddress_eq_ok hread
    exact ⟨s₁, text, code, n, output, hbuild, htext, hcode, hdeploy, ha, Prod.ext hask rfl, hsize,
      hword⟩
  case source =>
    have hapart := apart_build_record u.config l (isName_append name ".sol" (by decide)) k r.name
    exact (agree_saveRecord hsave hapart.symm).has_iff.1 hhas

/-- The condition is built and published where nothing has been published before. -/
theorem publish_workshop {a : Address} {x : Node}
    (h : trial? 16 ownedText ⟨7, 0, 0⟩ workshop.node = some (a, x)) :
    ∃ d t, Stocked d ∧ d.policy = .open ∧ workshop.registry.add a Registry.always = (.ok (), t) ∧
      publish (writer ownedText (some 0)) Registry.always workshop = .ok a ⟨d, x, t⟩ := by
  obtain ⟨d, hbeside, hlook, hbuild⟩ := build_workshop ownedText (some 0)
  have hstocked : Stocked d :=
    .of_build furnished_workshop hbeside hlook (by rw [workshop_record]; exact nofun)
  obtain ⟨t, hadd⟩ : ∃ t, workshop.registry.add a Registry.always = (.ok (), t) :=
    Registry.exists_add_iff.2 ⟨rfl, rfl, rfl, ⟨7, 0, 0⟩, by cbv⟩
  obtain ⟨d', hd', hopen, -, hpublish⟩ := hstocked.publish_open (s := { workshop with disk := d })
    rfl (by cbv) hbuild h hadd hbeside.policy
  exact ⟨d', t, hd', hopen, hadd, hpublish⟩

theorem publish_guarantees_workshop : ∃ a s',
    publish (writer ownedText (some 0)) Registry.always workshop = .ok a s' ∧
    a = Evm.create2Address ⟨7, 0, 0⟩ Node.salt (ownedCode ++ Bytes.zeros 32) ∧
    s'.registry.newestAddress? .condition "always" = some a := by
  obtain ⟨a, b, c, x, y, z, htrial, -, -, -⟩ := ownedTrials_pass
  obtain ⟨d, t, -, -, -, h⟩ := publish_workshop htrial
  obtain ⟨-, owner, howner, ⟨s₁, text, code, n, output, hbuild, htext, hcode, -, ha, -, -, -⟩, -,
    hnewest, -⟩ := publish_guarantees (writer ownedText (some 0)) Registry.always workshop _ a h
  obtain ⟨d, -, hlook, hbuild'⟩ := build_workshop ownedText (some 0)
  rw [hbuild', if_pos rfl] at hbuild
  cases hbuild
  cases (Disk.readText_of_look hlook).symm.trans htext
  cases parseBytecode_ownedText.symm.trans hcode
  cases (show Address.parse Registry.always.owner = .ok ⟨7, 0, 0⟩ by cbv).symm.trans howner
  exact ⟨a, _, h, ha, hnewest⟩

end ParticleChain.Publishing
