/-
This file creates and verifies the records of a client.
-/

import SpSync.Construction.Core.KeyStorage
import SpSync.Construction.Core.Securepath

namespace SpSync

/-- The plain headers of an authentic record; a record of another structure version or with another
tag is not authentic. -/
def verifyRecord (lib : Securepath) (key : EncryptionKey) (record : Record) (auth : ContentAuth) :
    Option (List Octets) :=
  if record.base.structureVersion ≠ currentStructureVersion then none
  else
    match lib.decrypt key record.base record.body record.headers with
    | some (headers, tag) => if tag = auth.tag then some headers else none
    | none => none

def findRecordKey (lib : Securepath) (keys : KeyStorage) (record : Record) (auth : ContentAuth) :
    Option EncryptionKey :=
  (keys.findAll record.base.encryptionKey).find? fun key => (verifyRecord lib key record auth).isSome

/-- The keys of an envelope are added; the answer says whether one has a new sequence. -/
def extractEncryptionKey (lib : Securepath) (keys : KeyStorage) (data : PlainUserChangeData) : KeyStorage × Bool :=
  if data.envelopedContent = [] then (keys, false)
  else match lib.openEnvelope data.envelopedContent with
    | none => (keys, false)
    | some opened => opened.foldl (fun (keys, learned) key =>
        (keys.insert key, learned || (keys.findAll key.keySeq).isEmpty)) (keys, false)

def extractKeysOf (lib : Securepath) (keys : KeyStorage) (record : Record) : KeyStorage × Bool :=
  match record.body with
  | .userChange data => extractEncryptionKey lib keys data
  | _ => (keys, false)

def learnRecordKey (lib : Securepath) (keys : KeyStorage) (record : Record) (auth : ContentAuth) :
    KeyStorage × Bool :=
  if (findRecordKey lib keys record auth).isSome then (keys, false) else extractKeysOf lib keys record

structure RecordSetting where
  key : EncryptionKey
  lastSeen : ChainBlockId
  signer : Option PublicKeyId
  iv : Octets
  opId : Octets
  lastSeenSpecial : RecordTag
deriving DecidableEq, Repr

def RecordSetting.base (setting : RecordSetting) : RecordBase where
  lastSeenBlock := setting.lastSeen
  iv := setting.iv
  encryptionKey := setting.key.keySeq
  opId := setting.opId
  lastSeenSpecialTag := setting.lastSeenSpecial

def createRecord (lib : Securepath) (setting : RecordSetting) (body : RecordBody) (headers : List Octets) :
    lib.Block :=
  let (encrypted, tag) := lib.encrypt setting.key setting.base body headers
  let record : Record := ⟨setting.base, body, encrypted⟩
  lib.newBlock record ⟨tag, setting.signer.map fun issuer => lib.signContent issuer (lib.serialise record) tag⟩

end SpSync
