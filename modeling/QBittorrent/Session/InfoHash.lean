import Mathlib.Data.BitVec

/-!
# Info-hashes

`BitTorrent::InfoHash` and the IDs of torrents that come from it, for libtorrent 2: a torrent has a
v1 hash, a v2 hash, or, as a hybrid torrent, both.
-/

namespace QBittorrent

/-- `Digest32<160>`, the value of a v1 hash and of a `TorrentID`. -/
abbrev Digest := BitVec 160

/-- `InfoHash`; a hash of zeros is none. -/
structure InfoHash where
  v1 : Digest
  v2 : BitVec 256
  deriving DecidableEq

namespace InfoHash

variable (h h' : InfoHash)

def hasV1 : Bool := h.v1 ≠ 0

def hasV2 : Bool := h.v2 ≠ 0

def isHybrid : Bool := h.hasV1 && h.hasV2

/-- The first 20 bytes of the v2 hash. -/
def truncatedV2 : Digest := h.v2.extractLsb' 96 160

/-- `toTorrentID`: `get_best` prefers the v2 hash. -/
def toTorrentID : Digest := if h.hasV2 then h.truncatedV2 else h.v1

/-- `TorrentID::fromSHA1Hash` of the v1 hash. -/
def altID : Digest := h.v1

/-- The two have a v1 or a v2 hash in common. -/
def Shares : Prop :=
  (h.hasV1 = true ∧ h.v1 = h'.v1) ∨ (h.hasV2 = true ∧ h.v2 = h'.v2)
  deriving Decidable

variable {h h'}

theorem Shares.symm (hs : h.Shares h') : h'.Shares h := by
  obtain ⟨hv, he⟩ | ⟨hv, he⟩ := hs
  · exact .inl ⟨by rwa [hasV1, ← he], he.symm⟩
  · exact .inr ⟨by rwa [hasV2, ← he], he.symm⟩

theorem Shares.trans {h'' : InfoHash} (hs : h.Shares h') (hs' : h'.Shares h'')
    (hone : ¬ h'.isHybrid = true) : h.Shares h'' := by
  obtain ⟨hv, he⟩ | ⟨hv, he⟩ := hs <;> obtain ⟨hv', he'⟩ | ⟨hv', he'⟩ := hs'
  · exact .inl ⟨hv, he.trans he'⟩
  · refine absurd ?_ hone
    rw [isHybrid, hv', hasV1, ← he]
    simpa [hasV1] using hv
  · refine absurd ?_ hone
    rw [isHybrid, hv', hasV2, ← he]
    simpa [hasV2] using hv
  · exact .inr ⟨hv, he.trans he'⟩

theorem isHybrid_iff : h.isHybrid = true ↔ h.hasV1 = true ∧ h.hasV2 = true := by
  rw [isHybrid, Bool.and_eq_true]

theorem toTorrentID_of_hasV2 (hv : h.hasV2 = true) : h.toTorrentID = h.truncatedV2 := if_pos hv

theorem toTorrentID_of_not_hasV2 (hv : ¬ h.hasV2 = true) : h.toTorrentID = h.v1 := if_neg hv

end InfoHash

end QBittorrent
