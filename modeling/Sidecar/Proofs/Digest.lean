import Mathlib
import Sidecar.Generation

/-! The digest of a message in pieces is the digest of the whole message, however its reads cut it
and however often they are interrupted. A read that fails leaves no digest. -/

namespace Sidecar.Digest

namespace Hasher

theorem absorb_fst (s : State) (bs : Bytes) : (absorb s bs).1 = (blocks bs).foldl compress s := by
  fun_induction absorb s bs with
  | case1 s bs full ih => rw [ih, blocks.eq_1 bs, dif_pos full, List.foldl_cons]
  | case2 s bs part => rw [blocks, dif_neg part, List.foldl_nil]

/-- What is absorbed in two parts is absorbed as one, with what the first part left pending. -/
theorem absorb_append (s : State) (a b : Bytes) :
    absorb s (a ++ b) = absorb (absorb s a).1 ((absorb s a).2 ++ b) := by
  fun_induction absorb s a with
  | case1 s a full ih =>
    have hlen : blockSize ≤ a.length := by
      rw [List.length_take] at full
      omega
    have htake : (a ++ b).take blockSize = a.take blockSize := List.take_append_of_le_length hlen
    have hdrop : (a ++ b).drop blockSize = a.drop blockSize ++ b :=
      List.drop_append_of_le_length hlen
    rw [absorb, htake, dif_pos full, hdrop, ih]
  | case2 => rfl

/-- The state of a digest that has taken in a message so far. -/
structure Holds (h : Hasher) (message : Bytes) : Prop where
  absorbed : absorb .initial message = (h.state, h.pending)
  length : h.length = message.length

theorem holds_new : new.Holds [] := by
  refine ⟨?_, rfl⟩
  rw [absorb, dif_neg (by decide)]
  rfl

theorem Holds.update {h : Hasher} {message : Bytes} (hm : h.Holds message) (piece : Bytes) :
    (h.update piece).Holds (message ++ piece) := by
  refine ⟨?_, ?_⟩
  · rw [absorb_append, hm.absorbed]
    rfl
  · rw [List.length_append, ← hm.length]
    rfl

theorem Holds.finish_eq {h : Hasher} {message : Bytes} (hm : h.Holds message) :
    h.finish = sha256 message := by
  have hwhole := absorb_append .initial message (padding message.length)
  rw [hm.absorbed] at hwhole
  rw [finish, hm.length, ← hwhole, absorb_fst, sha256]

end Hasher

/-! What reads bring. -/

/-- The bytes that reads bring until one of them brings nothing or fails, and the cause if it
fails. What would be read later is never asked for. -/
inductive Brings {ε : Type} : List (Read ε) → Bytes → Option ε → Prop where
  | done {later : List (Read ε)} : Brings (.piece [] :: later) [] none
  | failed {cause : ε} {later : List (Read ε)} : Brings (.failed cause :: later) [] (some cause)
  | interrupted {later : List (Read ε)} {content : Bytes} {ending : Option ε}
      (h : Brings later content ending) : Brings (.interrupted :: later) content ending
  | piece {bytes : Bytes} {later : List (Read ε)} {content : Bytes} {ending : Option ε}
      (hne : bytes ≠ []) (hlimit : bytes.length ≤ pieceLimit) (h : Brings later content ending) :
      Brings (.piece bytes :: later) (bytes ++ content) ending

section Reads

variable {ε : Type} {reads : List (Read ε)} {content : Bytes} {ending : Option ε}

theorem ofReads_piece (h : Hasher) {bytes : Bytes} (hne : bytes ≠ []) (later : List (Read ε)) :
    ofReads h (.piece bytes :: later) = ofReads (h.update bytes) later := by
  cases bytes with
  | nil => contradiction
  | cons => rfl

/-- The digest under way holds what was brought so far; the reads decide only how it ends. -/
theorem Brings.ofReads_eq (hr : Brings reads content ending) {h : Hasher} {message : Bytes}
    (hm : h.Holds message) : ofReads h reads =
      ending.elim (.ok (sha256 (message ++ content))) .error := by
  induction hr generalizing h message with
  | done =>
    rw [ofReads, hm.finish_eq, List.append_nil]
    rfl
  | failed => rfl
  | interrupted _ ih => exact ih hm
  | piece hne _ _ ih => rw [ofReads_piece h hne, ih (hm.update _), List.append_assoc]

theorem brings_fullReads (ε : Type) (content : Bytes) :
    Brings (fullReads content : List (Read ε)) content none := by
  fun_induction fullReads (ε := ε) content with
  | case1 => exact .done
  | case2 content hne ih =>
    have hlimit : (content.take pieceLimit).length ≤ pieceLimit := List.length_take_le ..
    have hpiece : content.take pieceLimit ≠ [] := by
      intro hnil
      rcases List.take_eq_nil_iff.mp hnil with hzero | hnil
      · contradiction
      · exact hne hnil
    have hbrings := ih.piece hpiece hlimit
    rwa [List.take_append_drop] at hbrings

theorem digest_fullReads (ε : Type) (content : Bytes) :
    ofReads .new (fullReads content : List (Read ε)) = .ok (sha256 content) := by
  rw [(brings_fullReads ε content).ofReads_eq Hasher.holds_new, List.nil_append, Option.elim_none]

end Reads

/-! The form of a digest. -/

/-- Sixty-four digits of base sixteen, none of them a capital. -/
structure IsHexDigest (digest : String) : Prop where
  length : digest.length = 64
  digit : ∀ c ∈ digest.toList, c ∈ "0123456789abcdef".toList

theorem hexDigit_mem : ∀ n < 16, hexDigit n ∈ "0123456789abcdef".toList := by
  decide

theorem mem_of_mem_hex {bs : Bytes} {c : Char} (h : c ∈ (hex bs).toList) :
    c ∈ "0123456789abcdef".toList := by
  rw [hex, String.toList_ofList, List.mem_flatMap] at h
  obtain ⟨b, _, hc⟩ := h
  have hb := b.toNat_lt
  rw [List.mem_pair] at hc
  rcases hc with rfl | rfl
  · exact hexDigit_mem _ (by omega)
  · exact hexDigit_mem _ (by omega)

theorem length_hex (bs : Bytes) : (hex bs).length = 2 * bs.length := by
  rw [hex, String.length_ofList, List.length_flatMap]
  simp [Nat.mul_comm]

theorem isHexDigest_hex (s : State) : IsHexDigest s.hex := by
  constructor
  · have hbytes : (s.words.flatMap wordBytes).length = 32 := by
      simp [State.words, wordBytes, bigEndian]
    rw [State.hex, length_hex, hbytes]
  · intro c hc
    exact mem_of_mem_hex hc

/-! The digest of a file. -/

/-- The digest of the file at a path, from what the reads of the opened file bring. -/
def sha256OfReads (p : Path) (reads : List (Read OsError)) : Except Failure String :=
  (ofReads .new reads).mapError (.unreadable p)

/-- A file's digest is that of its bytes taken at once, in whatever pieces its reads bring them, and
a read that fails is the failure of the whole. A file in a tree is read so. -/
theorem sha256_of_reads (p : Path) :
    (∀ reads content, Brings reads content none → sha256OfReads p reads = .ok (sha256 content) ∧
      sha256 content = (Hasher.new.update content).finish ∧ IsHexDigest (sha256 content)) ∧
    (∀ reads content cause, Brings reads content (some cause) →
      sha256OfReads p reads = .error (.unreadable p cause)) ∧
    (∀ t : FileTree, sha256File t p = ((t.read p).mapError (.unreadable p) >>= fun content =>
      sha256OfReads p (fullReads content.toList))) ∧
    ∀ content, Brings (fullReads content : List (Read OsError)) content none := by
  refine ⟨?_, ?_, fun t => rfl, brings_fullReads OsError⟩
  · intro reads content h
    refine ⟨?_, ?_, isHexDigest_hex _⟩
    · rw [sha256OfReads, h.ofReads_eq Hasher.holds_new, List.nil_append]
      rfl
    · rw [(Hasher.holds_new.update content).finish_eq, List.nil_append]
  · intro reads content cause h
    rw [sha256OfReads, h.ofReads_eq Hasher.holds_new]
    rfl

theorem sha256_of_reads_abc :
    let whole : List (Read OsError) := [.piece [0x61], .interrupted, .piece [0x62, 0x63], .piece []]
    let broken : List (Read OsError) := [.interrupted, .piece [0x61], .failed .isADirectory]
    Brings whole [0x61, 0x62, 0x63] none ∧ sha256OfReads ⟨"a"⟩ whole =
      .ok "ba7816bf8f01cfea414140de5dae2223b00361a396177a9cb410ff61f20015ad" ∧
    Brings broken [0x61] (some .isADirectory) ∧
      sha256OfReads ⟨"a"⟩ broken = .error (.unreadable ⟨"a"⟩ .isADirectory) := by
  intro whole broken
  have hwhole : Brings whole [0x61, 0x62, 0x63] none :=
    .piece (by decide) (by decide) (.interrupted (.piece (by decide) (by decide) .done))
  have hbroken : Brings broken [0x61] (some .isADirectory) :=
    .interrupted (.piece (by decide) (by decide) .failed)
  have hdigest : sha256 [0x61, 0x62, 0x63] =
      "ba7816bf8f01cfea414140de5dae2223b00361a396177a9cb410ff61f20015ad" := by
    cbv
  have ⟨hok, herror, _⟩ := sha256_of_reads ⟨"a"⟩
  exact ⟨hwhole, hdigest ▸ (hok _ _ hwhole).1, hbroken, herror _ _ _ hbroken⟩

end Sidecar.Digest
