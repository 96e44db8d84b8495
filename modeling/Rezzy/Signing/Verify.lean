import Rezzy.Basespec.CanonicalJson
import Rezzy.Basespec.JsonContent
import Rezzy.Lib.Fallible

namespace Rezzy.Signing

open Basespec Json StateResVersion Except List Value Outcome
open StateResVersion (fromRoomVersion)

section

def toAsciiLowercase (name : String) : String := String.ofList (name.toList.map Char.toLower)

def eqIgnoreAsciiCase (a b : String) : Bool := toAsciiLowercase a = toAsciiLowercase b

abbrev Signature := {bytes : Bytes // bytes.length = 64}

/-- Base64 without padding, into a buffer of sixty-four bytes, and the verification of a signature by a key. Errors are
    their texts. -/
structure Ed25519 (Key : Type) where
  decodeInto : String → Except String {bytes : Bytes // bytes.length ≤ 64}
  verify : Key → Signature → Bytes → Except String Unit

structure SignatureVerifier where
  hasKey : String → String → Bool
  verify : String → String → Bytes → Bytes → Except String Unit

structure Ed25519ConsensusVerifier (Key : Type) where
  keys : String × String → Option Key

namespace Ed25519ConsensusVerifier

variable {Key : Type} (ed25519 : Ed25519 Key) (verifier : Ed25519ConsensusVerifier Key)

def new : Ed25519ConsensusVerifier Key := ⟨fun _ => none⟩

def insert (serverName keyId : String) (key : Key) : Ed25519ConsensusVerifier Key :=
  ⟨Function.update verifier.keys (toAsciiLowercase serverName, keyId) (some key)⟩

def getKey (serverName keyId : String) : Option Key := verifier.keys (toAsciiLowercase serverName, keyId)

def hasKey (serverName keyId : String) : Bool := (verifier.keys (toAsciiLowercase serverName, keyId)).isSome

def toSignature (bytes : Bytes) : Except String Signature :=
  if size : bytes.length = 64 then .ok ⟨bytes, size⟩ else .error "signature must be 64 bytes"

def verificationFailed (fault : String) : String := "signature verification failed: " ++ fault

def verify (serverName keyId : String) (message signature : Bytes) : Except String Unit :=
  match verifier.keys (toAsciiLowercase serverName, keyId) with
  | none => .error ("no public key for " ++ serverName ++ "/" ++ keyId)
  | some key => do
    let sig ← toSignature signature
    (ed25519.verify key sig message).mapError verificationFailed

def signatureVerifier : SignatureVerifier := ⟨verifier.hasKey, verifier.verify ed25519⟩

end Ed25519ConsensusVerifier

variable {Key : Type} (ed25519 : Ed25519 Key)

def serverOf (sigil : Char) (id : String) : Option String :=
  let body := if id.toList.head? = some sigil then id.toList.tail else id.toList
  (splitOnce ':' body).map fun parts => String.ofList parts.2

def expectedEventSigner (value : Value) (roomVersion : String) : Option String :=
  if roomVersion = "1" ∨ roomVersion = "2" then ((value.get fieldEventId).bind Value.asStr).bind (serverOf '$')
  else ((value.get fieldSender).bind Value.asStr).bind (serverOf '@')

def unsupportedRoomVersion (roomVersion : String) : String :=
  "unsupported room version " ++ roomVersion ++ ": cannot verify signatures over an undefined format"

def noSigner : String := "could not derive expected event signer from event_id or sender"

def notCanonical (fault : String) : String := "failed to compute canonical redacted JSON: " ++ fault

def noSignatures : String := "event has no signatures object"

def notString (server keyId : String) : String := "signature for " ++ server ++ "/" ++ keyId ++ " is not a string"

def badBase64 (server keyId fault : String) : String := "bad base64 for " ++ server ++ "/" ++ keyId ++ ": " ++ fault

def verifyEntry (verifier : SignatureVerifier) (message : Bytes) (server : String) (verifiedAny : Bool)
    (entry : String × Value) : Except String Bool :=
  if verifier.hasKey server entry.1 then
    match entry.2.asStr with
    | none => .error (notString server entry.1)
    | some sigStr => do
      let sigBytes ← (ed25519.decodeInto sigStr).mapError (badBase64 server entry.1)
      verifier.verify server entry.1 message sigBytes.val
      .ok true
  else .ok verifiedAny

def verifyServer (verifier : SignatureVerifier) (message : Bytes) (expectedServer : String) (verifiedAny : Bool)
    (entry : String × Value) : Except String Bool :=
  if eqIgnoreAsciiCase expectedServer entry.1 then
    match entry.2.asObject with
    | none => .ok verifiedAny
    | some keys => keys.foldlM (verifyEntry ed25519 verifier message entry.1) verifiedAny
  else .ok verifiedAny

def verifyEventSignaturesFromServer (value : Value) (roomVersion expectedServer : String)
    (verifier : SignatureVerifier) : Except String Unit := do
  let message ← (tryCanonicalRedactedJson value roomVersion).mapError notCanonical
  match (value.get fieldSignatures).bind Value.asObject with
  | none => .error noSignatures
  | some signatures =>
    let verifiedAny ← signatures.foldlM (verifyServer ed25519 verifier message expectedServer) false
    if verifiedAny then .ok () else .error ("no supported signature from required server " ++ expectedServer)

def verifyEventSignatures (value : Value) (roomVersion : String) (verifier : SignatureVerifier) : Except String Unit :=
  if (fromRoomVersion roomVersion).isNone then .error (unsupportedRoomVersion roomVersion)
  else
    match expectedEventSigner value roomVersion with
    | none => .error noSigner
    | some origin => verifyEventSignaturesFromServer ed25519 value roomVersion origin verifier

variable (keys : Ed25519ConsensusVerifier Key)

def sequentialEntry (message : Bytes) (server : String) (verifiedAny : Bool) (entry : String × Value) :
    Except String Bool :=
  match keys.getKey server entry.1 with
  | none => .ok verifiedAny
  | some key =>
    match entry.2.asStr with
    | none => .error (notString server entry.1)
    | some sigStr => do
      let raw ← (ed25519.decodeInto sigStr).mapError (badBase64 server entry.1)
      let signature ← Ed25519ConsensusVerifier.toSignature raw.val
      (ed25519.verify key signature message).mapError Ed25519ConsensusVerifier.verificationFailed
      .ok true

def sequentialServer (message : Bytes) (origin : String) (verifiedAny : Bool) (entry : String × Value) :
    Except String Bool :=
  if eqIgnoreAsciiCase origin entry.1 then
    match entry.2.asObject with
    | none => .ok verifiedAny
    | some keySet => keySet.foldlM (sequentialEntry ed25519 keys message entry.1) verifiedAny
  else .ok verifiedAny

def sequentialEvent (roomVersion : String) (value : Value) : Except String Unit := do
  let message ← (tryCanonicalRedactedJson value roomVersion).mapError notCanonical
  match (value.get fieldSignatures).bind Value.asObject with
  | none => .error noSignatures
  | some sigsMap =>
    match expectedEventSigner value roomVersion with
    | none => .error noSigner
    | some origin =>
      let eventVerifiedAny ← sigsMap.foldlM (sequentialServer ed25519 keys message origin) false
      if eventVerifiedAny then .ok () else .error "no supported signatures present on event"

def verifySequential (events : List Value) (roomVersion : String) : Except String Unit :=
  if (fromRoomVersion roomVersion).isNone then .error (unsupportedRoomVersion roomVersion)
  else events.forM (sequentialEvent ed25519 keys roomVersion)

end

open Fallible

section

structure Registration (Key : Type) where
  serverName : String
  keyId : String
  key : Key

variable {Key : Type}

def registered (registrations : List (Registration Key)) : Ed25519ConsensusVerifier Key :=
  registrations.foldl (fun verifier r => verifier.insert r.serverName r.keyId r.key) .new

def registeredKey (registrations : List (Registration Key)) (server keyId : String) : Option Key :=
  (registrations.reverse.find? fun r => eqIgnoreAsciiCase server r.serverName && r.keyId = keyId).map Registration.key

theorem eqIgnoreAsciiCase_iff : eqIgnoreAsciiCase a b = true ↔ toAsciiLowercase a = toAsciiLowercase b :=
  decide_eq_true_iff

theorem getKey_registered (registrations : List (Registration Key)) (server keyId : String) :
    (registered registrations).getKey server keyId = registeredKey registrations server keyId := by
  induction registrations using reverseRecOn with
  | nil => rfl
  | append_singleton before r ih =>
    unfold registered registeredKey at ih ⊢
    rw [foldl_append, foldl_cons, foldl_nil, reverse_append, reverse_singleton, singleton_append, find?_cons]
    unfold Ed25519ConsensusVerifier.getKey Ed25519ConsensusVerifier.insert at ih ⊢
    dsimp only
    rw [Function.update_apply]
    by_cases names : toAsciiLowercase server = toAsciiLowercase r.serverName
    · by_cases ids : keyId = r.keyId
      · simp [eqIgnoreAsciiCase, names, ids]
      · simp only [eqIgnoreAsciiCase, names, Prod.mk.injEq, ids, and_false, if_false, decide_true, Bool.true_and,
          decide_eq_false (Ne.symm ids)]
        rw [← names]
        exact ih
    · simp only [eqIgnoreAsciiCase, names, Prod.mk.injEq, false_and, if_false, decide_false, Bool.false_and]
      exact ih

theorem registeredKey_case (registrations : List (Registration Key)) (same : eqIgnoreAsciiCase server other = true)
    (keyId : String) : registeredKey registrations other keyId = registeredKey registrations server keyId := by
  unfold registeredKey eqIgnoreAsciiCase
  rw [eqIgnoreAsciiCase_iff.mp same]

variable (ed25519 : Ed25519 Key) (registrations : List (Registration Key))

structure Verifies (key : Key) (message : Bytes) (sig : Value) : Prop where
  string : ∃ text decoded size, sig = .string text ∧ ed25519.decodeInto text = .ok decoded ∧
    ed25519.verify key ⟨decoded.val, size⟩ message = .ok ()

def SignedBy (signatures : Object.Members) (signer : String) (sig : Value) (key : Key) : Prop :=
  ∃ server entries keyId, (server, .object entries) ∈ signatures ∧ eqIgnoreAsciiCase signer server = true ∧
    (keyId, sig) ∈ entries ∧ registeredKey registrations signer keyId = some key

def Signed (value : Value) (roomVersion : String) : Prop :=
  ∃ signer message signatures, expectedEventSigner value roomVersion = some signer ∧
    tryCanonicalRedactedJson value roomVersion = .ok message ∧
    value.get fieldSignatures = some (.object signatures) ∧
    (∃ sig key, SignedBy registrations signatures signer sig key) ∧
    ∀ sig key, SignedBy registrations signatures signer sig key → Verifies ed25519 key message sig

def EntryGood (server : String) (message : Bytes) (entry : String × Value) : Prop :=
  ∀ key, registeredKey registrations server entry.1 = some key → Verifies ed25519 key message entry.2

def EntryCounts (server : String) (entry : String × Value) : Prop :=
  (registeredKey registrations server entry.1).isSome = true

def ServerGood (signer : String) (message : Bytes) (member : String × Value) : Prop :=
  eqIgnoreAsciiCase signer member.1 = true → ∀ entries, member.2 = .object entries →
    ∀ entry ∈ entries, EntryGood ed25519 registrations member.1 message entry

def ServerCounts (signer : String) (member : String × Value) : Prop :=
  eqIgnoreAsciiCase signer member.1 = true ∧ ∃ entries, member.2 = .object entries ∧
    ∃ entry ∈ entries, EntryCounts registrations member.1 entry

variable {ed25519 registrations}

theorem toSignature_eq_ok :
    Ed25519ConsensusVerifier.toSignature bytes = .ok signature ↔ ∃ size, signature = ⟨bytes, size⟩ := by
  unfold Ed25519ConsensusVerifier.toSignature
  by_cases size : bytes.length = 64
  · rw [dif_pos size, ok.injEq, eq_comm]
    exact ⟨fun same => ⟨size, same⟩, fun ⟨_, same⟩ => same⟩
  · rw [dif_neg size]
    exact iff_of_false nofun fun ⟨fits, _⟩ => size fits

theorem mapError_eq_ok {ε ε' α : Type} {f : ε → ε'} {result : Except ε α} {a : α} :
    result.mapError f = .ok a ↔ result = .ok a := by
  cases result with
  | error fault => exact iff_of_false nofun nofun
  | ok b => rw [Except.mapError, ok.injEq, ok.injEq]

theorem asStr_eq_some {v : Value} : v.asStr = some text ↔ v = .string text := by
  cases v with
  | string s => rw [Value.asStr, Option.some.injEq, Value.string.injEq]
  | _ => exact iff_of_false nofun nofun

theorem asObject_eq_some {v : Value} : v.asObject = some members ↔ v = .object members := by
  cases v with
  | object m => rw [asObject, Option.some.injEq, object.injEq]
  | _ => exact iff_of_false nofun nofun

theorem sequentialEntry_checks (message : Bytes) (server : String) :
    Checks (sequentialEntry ed25519 (registered registrations) message server)
      (EntryGood ed25519 registrations server message) (EntryCounts registrations server) := by
  intro entry flag out
  unfold sequentialEntry EntryGood EntryCounts
  rw [getKey_registered]
  cases found : registeredKey registrations server entry.1 with
  | none =>
    rw [ok.injEq, Bool.eq_iff_iff]
    simp [iff_comm]
  | some key =>
    simp only [Option.some.injEq, Option.isSome_some, or_true, iff_true, forall_eq']
    cases text : entry.2.asStr with
    | none =>
      refine iff_of_false (by rintro ⟨⟩) ?_
      rintro ⟨⟨_, _, _, string, _⟩, _⟩
      rw [asStr_eq_some.mpr string] at text
      cases text
    | some sigStr =>
      have string := asStr_eq_some.mp text
      simp only [bind_eq_ok, toSignature_eq_ok, mapError_eq_ok]
      constructor
      · rintro ⟨raw, decoded, _, ⟨size, rfl⟩, _, verified, ended⟩
        exact ⟨⟨sigStr, raw, size, string, decoded, verified⟩, (ok.inj ended).symm⟩
      · rintro ⟨⟨other, raw, size, again, decoded, verified⟩, rfl⟩
        rw [string] at again
        cases again
        exact ⟨raw, decoded, _, ⟨size, rfl⟩, (), verified, rfl⟩

theorem verifyEntry_eq (ed25519 : Ed25519 Key) (message : Bytes) (server : String) (keys : Ed25519ConsensusVerifier Key) (flag : Bool)
    (entry : String × Value) : verifyEntry ed25519 (keys.signatureVerifier ed25519) message server flag entry =
      sequentialEntry ed25519 keys message server flag entry := by
  have has : (keys.signatureVerifier ed25519).hasKey server entry.1 = (keys.getKey server entry.1).isSome := rfl
  unfold verifyEntry sequentialEntry
  rw [has]
  cases found : keys.getKey server entry.1 with
  | none => rfl
  | some key =>
    have verified : ∀ signature, (keys.signatureVerifier ed25519).verify server entry.1 message signature =
        Ed25519ConsensusVerifier.toSignature signature >>= fun sig =>
          (ed25519.verify key sig message).mapError Ed25519ConsensusVerifier.verificationFailed := by
      intro signature
      unfold Ed25519ConsensusVerifier.getKey at found
      unfold Ed25519ConsensusVerifier.signatureVerifier Ed25519ConsensusVerifier.verify
      dsimp only
      rw [found]
    simp only [Option.isSome_some, if_true, verified, bind_assoc]

theorem verifyServer_eq (message : Bytes) (server : String) (keys : Ed25519ConsensusVerifier Key) :
    verifyServer ed25519 (keys.signatureVerifier ed25519) message server =
      sequentialServer ed25519 keys message server := by
  funext flag entry
  unfold verifyServer sequentialServer
  have same := funext fun flag => funext (verifyEntry_eq ed25519 message entry.1 keys flag)
  rw [same]

theorem sequentialServer_checks (message : Bytes) (signer : String) :
    Checks (sequentialServer ed25519 (registered registrations) message signer)
      (ServerGood ed25519 registrations signer message) (ServerCounts registrations signer) := by
  intro mem flag out
  have unchanged : (Except.ok flag : Except String Bool) = .ok out ↔ (out = true ↔ flag = true) := by
    rw [Except.ok.injEq, Bool.eq_iff_iff, iff_comm (a := out = true)]
  unfold sequentialServer ServerGood ServerCounts
  cases same : eqIgnoreAsciiCase signer mem.1 with
  | false =>
    simp only [Bool.false_eq_true, if_false, false_imp_iff, false_and, or_false, true_and]
    exact unchanged
  | true =>
    simp only [if_true, true_imp_iff, true_and]
    cases object : mem.2.asObject with
    | none =>
      have other : ∀ entries, mem.2 ≠ .object entries := by
        intro entries given
        rw [asObject_eq_some.mpr given] at object
        cases object
      simp only [other, false_imp_iff, implies_true, false_and, exists_false, or_false, true_and]
      exact unchanged
    | some entries =>
      rw [(sequentialEntry_checks message mem.1).foldlM, asObject_eq_some.mp object]
      simp only [Value.object.injEq, forall_eq', exists_eq_left']

theorem sequentialServer_foldlM (signatures : Object.Members) (message : Bytes) (signer : String) :
    signatures.foldlM (sequentialServer ed25519 (registered registrations) message signer) false = .ok true ↔
      (∃ sig key, SignedBy registrations signatures signer sig key) ∧
        ∀ sig key, SignedBy registrations signatures signer sig key → Verifies ed25519 key message sig := by
  rw [(sequentialServer_checks message signer).foldlM, and_comm]
  simp only [Bool.false_eq_true, false_or, true_iff]
  apply and_congr
  · constructor
    · rintro ⟨⟨server, _⟩, inside, same, entries, rfl, ⟨keyId, sig⟩, entry, counts⟩
      obtain ⟨key, found⟩ := Option.isSome_iff_exists.mp counts
      rw [registeredKey_case registrations same] at found
      exact ⟨sig, key, server, entries, keyId, inside, same, entry, found⟩
    · rintro ⟨sig, key, server, entries, keyId, inside, same, entry, found⟩
      rw [← registeredKey_case registrations same] at found
      exact ⟨_, inside, same, entries, rfl, _, entry, Option.isSome_iff_exists.mpr ⟨key, found⟩⟩
  · constructor
    · rintro each sig key ⟨server, entries, keyId, inside, same, entry, found⟩
      rw [← registeredKey_case registrations same] at found
      exact each _ inside same entries rfl _ entry key found
    · rintro each ⟨server, _⟩ inside same entries rfl ⟨keyId, sig⟩ entry key found
      rw [registeredKey_case registrations same] at found
      exact each sig key ⟨server, entries, keyId, inside, same, entry, found⟩

theorem raised {run : Except String Bool} :
    (run >>= fun flag => if flag then .ok () else .error fault) = .ok () ↔ run = .ok true := by
  rw [bind_eq_ok]
  constructor
  · rintro ⟨flag, ran, ended⟩
    cases flag with
    | true => exact ran
    | false => cases ended
  · exact fun ran => ⟨true, ran, rfl⟩

theorem signatures_eq_some {value : Value} : (value.get fieldSignatures).bind asObject = some signatures ↔
      value.get fieldSignatures = some (.object signatures) := by
  rw [Option.bind_eq_some_iff]
  constructor
  · rintro ⟨v, found, object⟩
    rw [found, asObject_eq_some.mp object]
  · exact fun found => ⟨_, found, rfl⟩

theorem sequentialEvent_ok (value : Value) (roomVersion : String) :
    sequentialEvent ed25519 (registered registrations) roomVersion value = .ok () ↔
      Signed ed25519 registrations value roomVersion := by
  unfold sequentialEvent Signed
  rw [bind_eq_ok]
  simp only [mapError_eq_ok]
  constructor
  · rintro ⟨message, canonical, ended⟩
    cases object : (value.get fieldSignatures).bind asObject with
    | none =>
      rw [object] at ended
      cases ended
    | some signatures =>
      rw [object] at ended
      cases expected : expectedEventSigner value roomVersion with
      | none =>
        rw [expected] at ended
        cases ended
      | some signer =>
        rw [expected] at ended
        exact ⟨signer, message, signatures, rfl, canonical, signatures_eq_some.mp object,
          (sequentialServer_foldlM signatures message signer).mp (raised.mp ended)⟩
  · rintro ⟨signer, message, signatures, expected, canonical, object, signed⟩
    refine ⟨message, canonical, ?_⟩
    rw [signatures_eq_some.mpr object, expected]
    exact raised.mpr ((sequentialServer_foldlM signatures message signer).mpr signed)

theorem verifyEventSignatures_ok (value : Value) (roomVersion : String) :
    verifyEventSignatures ed25519 value roomVersion ((registered registrations).signatureVerifier ed25519) = .ok () ↔
      (fromRoomVersion roomVersion).isSome = true ∧ Signed ed25519 registrations value roomVersion := by
  rw [← sequentialEvent_ok]
  unfold verifyEventSignatures
  cases fromRoomVersion roomVersion with
  | none => exact iff_of_false (by rintro ⟨⟩) (by rintro ⟨⟨⟩, _⟩)
  | some version =>
    rw [if_neg (by simp)]
    simp only [Option.isSome_some, true_and]
    cases expected : expectedEventSigner value roomVersion with
    | none =>
      refine iff_of_false (by rintro ⟨⟩) fun ended => ?_
      obtain ⟨signer, _, _, found, _⟩ := (sequentialEvent_ok value roomVersion).mp ended
      rw [expected] at found
      cases found
    | some signer =>
      unfold verifyEventSignaturesFromServer sequentialEvent
      simp only [bind_eq_ok (γ := Unit), expected, verifyServer_eq]
      refine exists_congr fun message => and_congr_right fun _ => ?_
      cases (value.get fieldSignatures).bind asObject with
      | none => exact iff_of_false (by rintro ⟨⟩) (by rintro ⟨⟩)
      | some signatures => exact raised.trans raised.symm

end

variable {Key : Type} (ed25519 : Ed25519 Key) (registrations : List (Registration Key)) (roomVersion : String)

/-- The list is accepted exactly when each event is, and an event exactly when it is signed. -/
theorem verifySequential_exact :
    (∀ events, verifySequential ed25519 (registered registrations) events roomVersion = .ok () ↔
      (StateResVersion.fromRoomVersion roomVersion).isSome = true ∧ ∀ value ∈ events, verifyEventSignatures ed25519 value
        roomVersion ((registered registrations).signatureVerifier ed25519) = .ok ()) ∧
    (∀ events, verifySequential ed25519 (registered registrations) events roomVersion = .ok () ↔
      (StateResVersion.fromRoomVersion roomVersion).isSome = true ∧
        ∀ value ∈ events, Signed ed25519 registrations value roomVersion) ∧
    ∀ value, verifyEventSignatures ed25519 value roomVersion
        ((registered registrations).signatureVerifier ed25519) = .ok () ↔
      (StateResVersion.fromRoomVersion roomVersion).isSome = true ∧ Signed ed25519 registrations value roomVersion := by
  have listed : ∀ events, verifySequential ed25519 (registered registrations) events roomVersion = .ok () ↔
      (fromRoomVersion roomVersion).isSome = true ∧
        ∀ value ∈ events, Signed ed25519 registrations value roomVersion := by
    intro events
    unfold verifySequential
    cases fromRoomVersion roomVersion with
    | none => exact iff_of_false nofun nofun
    | some version =>
      rw [if_neg (by simp), forM_eq_ok]
      simp only [sequentialEvent_ok, Option.isSome_some, true_and]
  refine ⟨fun events => ?_, listed, fun value => verifyEventSignatures_ok value roomVersion⟩
  rw [listed]
  refine and_congr_right fun supported => forall₂_congr fun value _ => ?_
  rw [verifyEventSignatures_ok]
  exact (and_iff_right supported).symm

end Rezzy.Signing
