import Gnunet.Util

/-!
# The Axolotl key context of a CADET tunnel

The "core crypto" part of `gnunet-service-cadet-new_tunnels.c`: the key context of
one end of a tunnel, encryption and decryption with the ratchet and the skipped
keys, and the computation of a context from a key exchange.  Counters are natural
numbers, reduced modulo `2 ^ 32` where the code can reach it.  The list of skipped
keys has its head first.  A fresh private key is the next number of a counter that
the callers thread.
-/

namespace Gnunet.Cadet

open Protocol

def maxSkippedKeys : Nat := 64

def maxKeyGap : Int := 256

/-- `struct CadetTunnelSkippedKey`, without the time stamp, which no function
reads. -/
structure SkippedKey (D : Type) where
  HK : Bytes D
  MK : Bytes D
  Kn : Nat
  deriving DecidableEq, Repr

structure Axolotl (D : Type) where
  skipped : List (SkippedKey D)
  RK : Bytes D
  HKs : Bytes D
  HKr : Bytes D
  NHKs : Bytes D
  NHKr : Bytes D
  CKs : Bytes D
  CKr : Bytes D
  kx0 : Bytes D
  DHRs : Bytes D
  DHRr : Bytes D
  ratchetExpiration : Nat
  Ns : Nat
  Nr : Nat
  PNs : Nat
  ratchetFlag : Bool
  ratchetAllowed : Bool
  ratchetCounter : Nat
  deriving DecidableEq, Repr

structure AxHeader (D : Type) where
  Ns : Nat
  PNs : Nat
  DHRs : Bytes D
  deriving DecidableEq, Repr

/-- `struct GNUNET_CADET_TunnelEncryptedMessage` as far as the key context
reads it: the authenticator, the encrypted header and the encrypted payload. -/
structure EncryptedMessage (D : Type) where
  hmac : Bytes D
  axHeader : Bytes D
  payload : Bytes D
  deriving DecidableEq, Repr

/-- The two options of the CADET section, and what the header of a message
reads as when it was not encrypted with the key that decrypts it. -/
structure Settings (D : Type) where
  ratchetMessages : Nat
  ratchetTime : Nat
  garbledHeader : Bytes D → AxHeader D

variable {D : Type}

/-- The options as `cadet.conf` ships them, with the header of a message under
another key read as zeros. -/
def Settings.shipped : Settings D where
  ratchetMessages := 64
  ratchetTime := 3600000000
  garbledHeader _ := ⟨0, 0, .zero⟩

def Axolotl.zeroed : Axolotl D where
  skipped := []
  RK := .zero
  HKs := .zero
  HKr := .zero
  NHKs := .zero
  NHKr := .zero
  CKs := .zero
  CKr := .zero
  kx0 := .zero
  DHRs := .zero
  DHRr := .zero
  ratchetExpiration := 0
  Ns := 0
  Nr := 0
  PNs := 0
  ratchetFlag := false
  ratchetAllowed := false
  ratchetCounter := 0

def Axolotl.created (kx0 ratchet : Nat) : Axolotl D :=
  { Axolotl.zeroed with kx0 := .secret kx0, DHRs := .secret ratchet }

def AxHeader.bytes (header : AxHeader D) : Bytes D :=
  .pair (.num header.Ns) (.pair (.num header.PNs) header.DHRs)

def Settings.readHeader (settings : Settings D) : Bytes D → AxHeader D
  | .pair (.num Ns) (.pair (.num PNs) DHRs) => ⟨Ns, PNs, DHRs⟩
  | bytes => settings.garbledHeader bytes

@[simp] theorem Settings.readHeader_bytes (settings : Settings D) (header : AxHeader D) :
    settings.readHeader header.bytes = header := rfl

def EncryptedMessage.signed (msg : EncryptedMessage D) : Bytes D :=
  .pair msg.axHeader msg.payload

def newEphemeral (fresh : Nat) (ax : Axolotl D) : Axolotl D :=
  { ax with DHRs := .secret fresh }

def tHmac (plaintext : Bytes D) (iv : Nat) (key : Bytes D) : Bytes D :=
  cryptoHmac (cryptoKdf .cadetAuthenticationKey 0 (.pair (.num iv) key)) plaintext

def tAxHmacHash (key source : Bytes D) : Bytes D :=
  cryptoHmac (cryptoKdf .axolotlHmacHash 0 key) source

def tHmacDeriveKey (key source : Bytes D) : Bytes D :=
  cryptoKdf .axolotlDeriveKey 0 (tAxHmacHash key source)

def symmetricDeriveIv (key : Bytes D) : Bytes D :=
  cryptoKdf .symmetricIv 0 key

/-- `keys[i]` of a ratchet step: the new root key, next header key and chain
key. -/
def ratchetKey (i : Nat) (RK dh : Bytes D) : Bytes D :=
  cryptoKdf .axolotlRatchet i (tAxHmacHash RK dh)

/-- The condition under which `t_ax_encrypt` starts a ratchet step of its own
accord; `ax.ratchetCounter` is already incremented there. -/
def ratchetDue (settings : Settings D) (now : Nat) (ax : Axolotl D) : Bool :=
  ax.ratchetAllowed && (decide (settings.ratchetMessages ≤ (ax.ratchetCounter + 1) % 2 ^ 32) ||
      decide (timeAbsoluteGetRemaining now ax.ratchetExpiration = 0))

def advanceRatchet (settings : Settings D) (now fresh : Nat) (ax : Axolotl D) : Axolotl D :=
  let ax := newEphemeral fresh ax
  let dh := Term.ecdh ax.DHRs ax.DHRr
  { ax with
    HKs := ax.NHKs
    RK := ratchetKey 0 ax.RK dh
    NHKs := ratchetKey 1 ax.RK dh
    CKs := ratchetKey 2 ax.RK dh
    PNs := ax.Ns
    Ns := 0
    ratchetFlag := false
    ratchetAllowed := false
    ratchetCounter := 0
    ratchetExpiration := timeAbsoluteAdd now settings.ratchetTime }

def tAxRatchet (settings : Settings D) (now fresh : Nat) (ax : Axolotl D) : Axolotl D × Nat :=
  let flag := ax.ratchetFlag || ratchetDue settings now ax
  let ax := { ax with
    ratchetCounter := (ax.ratchetCounter + 1) % 2 ^ 32
    ratchetFlag := flag }
  if flag then (advanceRatchet settings now fresh ax, fresh + 1)
  else (ax, fresh)

def tAxEncryptPayload (ax : Axolotl D) (src : Bytes D) : Axolotl D × Bytes D :=
  let MK := tHmacDeriveKey ax.CKs (.num 0)
  ({ ax with CKs := tHmacDeriveKey ax.CKs (.num 1) },
    cryptoSymmetricEncrypt src MK (symmetricDeriveIv MK))

def tAxEncrypt (settings : Settings D) (now fresh : Nat)
    (ax : Axolotl D) (src : Bytes D) : Axolotl D × Bytes D × Nat :=
  let (ax, fresh) := tAxRatchet settings now fresh ax
  let (ax, dst) := tAxEncryptPayload ax src
  (ax, dst, fresh)

def tHEncrypt (ax : Axolotl D) (header : AxHeader D) : Bytes D :=
  cryptoSymmetricEncrypt header.bytes ax.HKs (symmetricDeriveIv ax.HKs)

def gctSendMessage (settings : Settings D) (now fresh : Nat) (ax : Axolotl D) (message : Bytes D) :
    Axolotl D × EncryptedMessage D × Nat :=
  let (ax, payload, fresh) := tAxEncrypt settings now fresh ax message
  let header : AxHeader D := ⟨ax.Ns, ax.PNs, ax.DHRs.publicKey⟩
  let ax := { ax with Ns := (ax.Ns + 1) % 2 ^ 32 }
  let axHeader := tHEncrypt ax header
  (ax,
    { hmac := tHmac (.pair axHeader payload) 0 ax.HKs
      axHeader := axHeader
      payload := payload },
    fresh)

/-- The header key that the callers pass is not used: the entry is stored
under the header key of the context. -/
def storeSkippedKey (ax : Axolotl D) (_HKr : Bytes D) : Axolotl D :=
  { ax with
    skipped := ⟨ax.HKr, tHmacDeriveKey ax.CKr (.num 0), ax.Nr⟩ :: ax.skipped
    CKr := tHmacDeriveKey ax.CKr (.num 1)
    Nr := (ax.Nr + 1) % 2 ^ 32 }

/-- The loop of `store_ax_keys` that stores the keys up to `Np`; it makes at
most `Np - ax.Nr` rounds. -/
def storeSkippedKeys (HKr : Bytes D) (Np : Nat) : Nat → Axolotl D → Axolotl D
  | 0, ax => ax
  | rounds + 1, ax =>
      if ax.Nr < Np then
        storeSkippedKeys HKr Np rounds (storeSkippedKey ax HKr)
      else ax

/-- `Np - Nr` in `uint32_t`, converted to `int`. -/
def keyGap (Np Nr : Nat) : Int :=
  let diff : Nat := (Np + (2 ^ 32 - Nr % 2 ^ 32)) % 2 ^ 32
  if diff < 2 ^ 31 then diff else (diff : Int) - 2 ^ 32

/-- The result is `false` for `GNUNET_SYSERR`.  The last loop of the source
deletes entries from the tail of the list. -/
def storeAxKeys (ax : Axolotl D) (HKr : Bytes D) (Np : Nat) : Bool × Axolotl D :=
  let gap := keyGap Np ax.Nr
  if maxKeyGap < gap then (false, ax)
  else if gap < 0 then (false, ax)
  else
    let ax := storeSkippedKeys HKr Np (Np - ax.Nr) ax
    (true, { ax with skipped := ax.skipped.take maxSkippedKeys })

def commitRatchet (ax : Axolotl D) (DHRp : Bytes D) : Axolotl D :=
  let dh := Term.ecdh ax.DHRs DHRp
  { ax with
    RK := ratchetKey 0 ax.RK dh
    NHKr := ratchetKey 1 ax.RK dh
    CKr := ratchetKey 2 ax.RK dh
    DHRr := DHRp
    Nr := 0
    ratchetAllowed := true }

/-- The key material of the triple Diffie-Hellman exchange.  A peer identity
is the number of its long-term key, and the smaller identity is alice. -/
def kxMaterial (me pid : Nat) (kx0 ephemeralKey : Bytes D) : Bytes D :=
  if me < pid then
    .pair (Term.ecdh (.secret me) ephemeralKey)
      (.pair (Term.ecdh kx0 (.point pid)) (Term.ecdh kx0 ephemeralKey))
  else
    .pair (Term.ecdh kx0 (.point pid))
      (.pair (Term.ecdh (.secret me) ephemeralKey) (Term.ecdh kx0 ephemeralKey))

def kxKey (i : Nat) (material : Bytes D) : Bytes D :=
  cryptoKdf .cadetAxolotlSalt i material

variable [DecidableEq D]

def tAxDecrypt (ax : Axolotl D) (src : Bytes D) : Axolotl D × Bytes D :=
  let MK := tHmacDeriveKey ax.CKr (.num 0)
  ({ ax with CKr := tHmacDeriveKey ax.CKr (.num 1) },
    cryptoSymmetricDecrypt src MK (symmetricDeriveIv MK))

def tHDecrypt (settings : Settings D) (HK : Bytes D) (src : EncryptedMessage D) : AxHeader D :=
  settings.readHeader (cryptoSymmetricDecrypt src.axHeader HK (symmetricDeriveIv HK))

def hmacValid (HK : Bytes D) (src : EncryptedMessage D) : Bool :=
  decide (tHmac src.signed 0 HK = src.hmac)

def deleteSkippedKey (ax : Axolotl D) (key : SkippedKey D) : Axolotl D :=
  { ax with skipped := ax.skipped.erase key }

/-- The first loop finds an entry with a valid header key, the second one
continues from there to an entry with the number in the header. -/
def tryOldAxKeys (settings : Settings D) (ax : Axolotl D)
    (src : EncryptedMessage D) : Option (Bytes D) × Axolotl D :=
  match ax.skipped.dropWhile (fun key => !hmacValid key.HK src) with
  | [] => (none, ax)
  | valid :: rest =>
      let N := (tHDecrypt settings valid.HK src).Ns
      match (valid :: rest).dropWhile (fun key => decide (N ≠ key.Kn)) with
      | [] => (none, ax)
      | key :: _ =>
          if key.HK ≠ valid.HK then (none, ax)
          else
            (some (cryptoSymmetricDecrypt src.payload key.MK (symmetricDeriveIv key.MK)),
              deleteSkippedKey ax key)

/-- The block of `t_ax_decrypt_and_validate` for a message under the next
header key, up to the number `Np` of the message. -/
def switchChain (settings : Settings D) (ax : Axolotl D)
    (src : EncryptedMessage D) : Axolotl D × Nat :=
  let HK := ax.HKr
  let ax := { ax with HKr := ax.NHKr }
  let header := tHDecrypt settings ax.HKr src
  let (_, ax) := storeAxKeys ax HK header.PNs
  (commitRatchet ax header.DHRs, header.Ns)

def decryptInChain (settings : Settings D) (ax : Axolotl D) (Np : Nat)
    (src : EncryptedMessage D) : Option (Bytes D) × Axolotl D :=
  let (stored, ax) :=
    if Np = ax.Nr then (true, ax) else storeAxKeys ax ax.HKr Np
  if stored then
    let (ax, dst) := tAxDecrypt ax src.payload
    (some dst, { ax with Nr := (Np + 1) % 2 ^ 32 })
  else tryOldAxKeys settings ax src

/-- The result is `none` for `-1`. -/
def tAxDecryptAndValidate (settings : Settings D) (ax : Axolotl D)
    (src : EncryptedMessage D) : Option (Bytes D) × Axolotl D :=
  if hmacValid ax.HKr src then
    decryptInChain settings ax (tHDecrypt settings ax.HKr src).Ns src
  else if hmacValid ax.NHKr src then
    let (ax, Np) := switchChain settings ax src
    decryptInChain settings ax Np src
  else tryOldAxKeys settings ax src

inductive KxUpdate where
  | ok
  | no
  | sysErr
  deriving DecidableEq, Repr

def updateAxByKx (settings : Settings D) (now me : Nat) (ax : Axolotl D)
    (pid : Nat) (ephemeralKey ratchetKey : Bytes D) : KxUpdate × Axolotl D :=
  if me = pid then (.sysErr, ax)
  else if ax.DHRr = ratchetKey then (.no, ax)
  else
    let ax := { ax with DHRr := ratchetKey }
    let material := kxMaterial me pid ax.kx0 ephemeralKey
    if ax.RK = kxKey 0 material then (.no, ax)
    else if me < pid then
      (.ok, { ax with
        RK := kxKey 0 material
        HKr := kxKey 1 material
        NHKs := kxKey 2 material
        NHKr := kxKey 3 material
        CKr := kxKey 4 material
        ratchetFlag := true })
    else
      (.ok, { ax with
        RK := kxKey 0 material
        HKs := kxKey 1 material
        NHKr := kxKey 2 material
        NHKs := kxKey 3 material
        CKs := kxKey 4 material
        ratchetFlag := false
        ratchetExpiration := timeAbsoluteAdd now settings.ratchetTime })

end Gnunet.Cadet
