import Rdwarfs.Source.FuseSession
import Rdwarfs.Guarantees.AccessorSafety
import Rdwarfs.Guarantees.AskedBlocks
import Rdwarfs.Guarantees.ReadContract
import Rdwarfs.Guarantees.SameSections

/-!
# What a mount replies

The cache that one request leaves to the next, and blocks that do not decode, are invisible in every
reply but those to reads of the files that need such a block.
-/
namespace Rdwarfs.Guarantees.MountSessions

open Lib.Machine Lib.Oracle Lib.Oracle.Prog Lib.Builds
open Source Source.Format Source.Metadata Source.Fs Source.Codecs Source.Fuse
open AccessorSafety AskedBlocks BlockReads CacheAccounting CodecOutcomes OpenedFilesystem
open ReadContract

/-- The blocks in `good` decode to `contents`, and in part to a prefix that reaches as far as asked,
where a partial decode answers; of the others nothing is known. -/
structure DecodesOn (libs : Libraries) (fs : Filesystem) (good : UInt32 → Prop)
    (contents : UInt32 → Bytes) : Prop where
  whole : ∀ block record, good block → fs.blockRecords[block.toNat]? = some record →
    fs.image.decompressSection libs record fs.blockSize.toNat = .ok (contents block)
  bounded : ∀ block record, good block → fs.blockRecords[block.toNat]? = some record →
    (contents block).length ≤ fs.blockSize.toNat
  partly : ∀ block record want, good block → fs.blockRecords[block.toNat]? = some record →
    want ≤ fs.blockSize.toNat →
    fs.image.decompressSectionPrefix libs record want = .ok none ∨
    ∃ bytes, fs.image.decompressSectionPrefix libs record want = .ok (some bytes) ∧
      bytes <+: contents block ∧ min want (contents block).length ≤ bytes.length

section Blocks

variable (good : UInt32 → Prop) (fs : Filesystem) (contents : UInt32 → Bytes)

/-- The answers of `decode_block`. -/
def PermitsOn (query : BlockQuery) (answer : Result Bytes) : Prop :=
  (good query.block → Permits fs contents query answer) ∧ answer ≠ panicked

/-- A cache at rest, in which the entries for good blocks are prefixes of them. -/
structure ServesOn (cache : Inner) : Prop where
  accounted : Accounted cache
  prefixes : ∀ block bytes, good block → cache.blocks block = some (.ready bytes) →
    block.toNat < fs.blockRecords.length ∧ bytes <+: contents block
  idle : ∀ block, cache.blocks block ≠ some .loading

variable {good fs contents} {libs : Libraries}

theorem servesOn_empty : ServesOn good fs contents .empty where
  accounted := accounted_empty
  prefixes := by simp [Inner.empty]
  idle := by simp [Inner.empty]

theorem decodeRecord_permitsOn (decodes : DecodesOn libs fs good contents) (query : BlockQuery)
    (here : good query.block) (retryInFull : Bool) :
    Permits fs contents query (fs.decodeRecord libs query retryInFull) :=
  permits_decodeRecord (fun record found => ⟨decodes.whole _ record here found,
    decodes.bounded _ record here found, fun want => decodes.partly _ record want here found⟩)
    retryInFull

/-- A failing block leaves the entries of the others as they were. -/
theorem decodeBlock_servesOn (decodes : DecodesOn libs fs good contents)
    (calm : ∀ query retryInFull, fs.decodeRecord libs query retryInFull ≠ panicked) (budget : Nat)
    (query : BlockQuery) (cache : Inner) (serves : ServesOn good fs contents cache) :
    ∃ answer after, fs.decodeBlock libs budget query cache = some (answer, after) ∧
      PermitsOn good fs contents query answer ∧ ServesOn good fs contents after := by
  obtain ⟨answer, after, fetched, kept, idle, _, news, source⟩ :=
    serves.accounted.fetch serves.idle (fs.decodeRecord libs query) budget fs.blockSize.toNat
      query.block query.needed
  have permitted : PermitsOn good fs contents query answer := by
    cases source with
    | inl hit =>
      obtain ⟨bytes, ready, long, same⟩ := hit
      subst same
      refine ⟨fun here => ?_, by simp⟩
      obtain ⟨inside, isPrefix⟩ := serves.prefixes query.block bytes here ready
      exact permits_ok.mpr ⟨inside, isPrefix, Nat.le_trans (Nat.min_le_left _ _) long⟩
    | inr decoded =>
      obtain ⟨retryInFull, same⟩ := decoded
      subst same
      exact ⟨fun here => decodeRecord_permitsOn decodes query here retryInFull,
        calm query retryInFull⟩
  refine ⟨answer, after, fetched, permitted, kept, ?_, idle⟩
  intro block bytes here ready
  cases news block bytes ready with
  | inl before => exact serves.prefixes block bytes here before
  | inr fresh =>
    obtain ⟨same, returned⟩ := fresh
    subst same returned
    obtain ⟨inside, reaches⟩ := permits_ok.mp (permitted.1 here)
    exact ⟨inside, reaches.1⟩

end Blocks

/-- Every block that `chunk` names is good. -/
def Spares (good : UInt32 → Prop) (fs : Filesystem) (chunk : Chunk) : Prop :=
  fs.isHoleChunk chunk = false → good chunk.block

section Replies

variable (good : UInt32 → Prop) (fs : Filesystem) (contents : UInt32 → Bytes)

/-- The chunks of a range of the chunk table. -/
def chunksOf (start stop : Nat) : List Chunk := (fs.chunks.drop start).take (stop - start)

/-- What a read is replied to: the window of the content, unless the file needs a block that is
not known to be good. -/
structure ReadAnswered (ino offset : UInt64) (size : UInt32) (reply : Fuse.Reply) : Prop where
  refused : ∀ errno, dwarfsIno ino.toNat = fail errno → reply = .error errno.refused
  unreadable : ∀ inode, dwarfsIno ino.toNat = .ok inode → fs.kind inode ≠ .ok .regular →
    reply = .error .eio
  window : ∀ inode start stop, dwarfsIno ino.toNat = .ok inode → fs.kind inode = .ok .regular →
    fs.chunkRange inode = .ok (start, stop) →
    (∀ chunk ∈ chunksOf fs start stop, Spares good fs chunk ∧ Fits fs contents chunk) →
    reply = .data (((contentOf fs contents (chunksOf fs start stop)).drop offset.toNat).take
      size.toNat)

variable (makedev : UInt32 → UInt32 → UInt64) (libs : Libraries) (budget : Nat)

/-- Every other request is replied to alike whatever the cache holds, and leaves it alone. -/
def Answered (request : Fuse.Request) (reply : Fuse.Reply) : Prop :=
  match request with
  | .read ino offset size => ReadAnswered good fs contents ino offset size reply
  | request => ∀ cache, handle makedev fs libs budget request cache = some (.ok reply, cache)

variable {good fs contents makedev libs budget}

theorem orElse_replies {α : Type} {result : Result α} (calm : result ≠ panicked) (errno : Refused)
    (shown : α → Fuse.Reply) : ∃ reply, orElse result errno shown = .ok reply := by
  cases result with
  | ok value => exact ⟨_, rfl⟩
  | error failure =>
    cases failure with
    | err reason => exact ⟨_, rfl⟩
    | panic => exact absurd rfl calm

theorem dwarfsIno_cases (ino : Nat) :
    (∃ inode, dwarfsIno ino = .ok inode) ∨ ∃ errno, dwarfsIno ino = fail errno := by
  unfold dwarfsIno
  split
  · exact Or.inr ⟨_, rfl⟩
  · split
    · exact Or.inl ⟨_, rfl⟩
    · exact Or.inr ⟨_, rfl⟩

/-- A handler whose inode resolves to no panic replies. -/
theorem withIno_replies (ino : UInt64) {handler : UInt32 → Answer}
    (replies : ∀ inode, ∃ reply, handler inode = .ok reply) :
    ∃ reply, withIno ino id handler = .ok reply := by
  unfold withIno
  cases dwarfsIno_cases ino.toNat with
  | inl found =>
    obtain ⟨inode, found⟩ := found
    rw [found]
    exact replies inode
  | inr refused =>
    obtain ⟨errno, refused⟩ := refused
    rw [refused]
    exact ⟨_, rfl⟩

theorem attrOf_calm (derived : Derived fs) (inode : UInt32) :
    attrOf makedev fs inode ≠ panicked := by
  intro stuck
  cases bind_eq_panicked.mp stuck with
  | inl stopped => exact (settles_stat derived inode).1 stopped
  | inr done =>
    obtain ⟨_, -, impossible⟩ := done
    cases impossible

theorem lookup_replies (derived : Derived fs) (parent : UInt64) (name : Bytes) :
    ∃ reply, Fuse.lookup makedev fs parent name = .ok reply := by
  apply withIno_replies
  intro dir
  have calm := (@settles_lookupChild fs dir name).1
  cases found : fs.lookupChild dir name with
  | ok child =>
    cases child with
    | none => exact ⟨_, rfl⟩
    | some child => exact orElse_replies (attrOf_calm derived child) _ _
  | error failure =>
    cases failure with
    | err reason => exact ⟨_, rfl⟩
    | panic => exact absurd found calm

theorem settles_visitEntries {σ : Type} (visit : σ → UInt32 → InodeKind → Bytes → σ × Bool)
    {places : List Nat} (inside : ∀ i ∈ places, i < fs.dirEntries.length) (state : σ) :
    Settles (fs.visitEntries visit places state) fun _ => True := by
  induction places generalizing state with
  | nil => exact settles_ok trivial
  | cons i rest ih =>
    have listed : Settles (fs.listEntry i) fun _ => True :=
      (settles_index (inside i List.mem_cons_self)).bind fun entry _ =>
        (settles_entryName _).bind fun _ _ => (settles_kind _).bind fun _ _ => settles_ok trivial
    apply listed.bind
    intro entry _
    dsimp only
    split
    · exact ih (fun j member => inside j (List.mem_cons_of_mem i member)) _
    · exact settles_ok trivial

theorem settles_forEachEntry {σ : Type} (dir : UInt32)
    (visit : σ → UInt32 → InodeKind → Bytes → σ × Bool) (state : σ) :
    Settles (fs.forEachEntry dir visit state) fun _ => True := by
  apply (settles_kind dir).bind
  intro kind _
  apply (settles_refuseIf _ _).bind
  intro _ _
  apply (settles_dirEntryRange dir).bind
  intro range bounds
  apply settles_visitEntries
  intro i member
  have within := List.mem_range'_1.mp member
  omega

theorem readdir_calm (ino offset room : Nat) : readdir fs ino offset room ≠ panicked := by
  intro stuck
  unfold readdir at stuck
  cases dwarfsIno_cases ino with
  | inr refused =>
    obtain ⟨errno, refused⟩ := refused
    rw [refused, error_bind] at stuck
    cases stuck
  | inl found =>
    obtain ⟨dir, found⟩ := found
    rw [found, ok_bind] at stuck
    cases bind_eq_panicked.mp stuck with
    | inl stopped =>
      unfold parentOrSelf at stopped
      split at stopped
      · cases stopped
      · cases stopped
      · rename_i panics
        exact (@settles_parent fs dir).1 panics
    | inr parented =>
      obtain ⟨parent, -, stopped⟩ := parented
      split at stopped
      · cases stopped
      · split at stopped
        · cases stopped
        · cases stopped
        · rename_i panics
          exact (settles_forEachEntry dir _ _).1 panics

theorem replyDirectory_replies (ino offset : UInt64) (room : Nat) :
    ∃ reply, replyDirectory fs ino offset room = .ok reply := by
  have calm := @readdir_calm fs ino.toNat offset.toNat room
  unfold replyDirectory
  cases listed : readdir fs ino.toNat offset.toNat room with
  | ok entries => exact ⟨_, rfl⟩
  | error failure =>
    cases failure with
    | err errno => exact ⟨_, rfl⟩
    | panic => exact absurd listed calm

/-- What is not a regular file fails before any block is asked for. -/
theorem readInto_unreadable {inode : UInt32} (other : fs.kind inode ≠ .ok .regular) (offset : Nat)
    (buf : Bytes) : ∃ reason, fs.readInto inode offset buf = .done (fail reason) := by
  unfold Filesystem.readInto
  cases known : fs.kind inode with
  | error failure =>
    cases failure with
    | err reason => exact ⟨reason, rfl⟩
    | panic => exact absurd known (settles_kind inode).1
  | ok kind =>
    have unlike : kind ≠ .regular := by
      intro same
      exact other (by rw [known, same])
    rw [lift_ok_bind, refuseIf_of unlike]
    exact ⟨_, rfl⟩

theorem read_answered (derived : Derived fs) (decodes : DecodesOn libs fs good contents)
    (calm : ∀ query retryInFull, fs.decodeRecord libs query retryInFull ≠ panicked) {cache : Inner}
    (serves : ServesOn good fs contents cache) (ino offset : UInt64) (size : UInt32) :
    ∃ reply after, Fuse.read fs libs budget ino offset size cache = some (.ok reply, after) ∧
      ServesOn good fs contents after ∧ ReadAnswered good fs contents ino offset size reply := by
  unfold Fuse.read withIno
  cases dwarfsIno_cases ino.toNat with
  | inr refused =>
    obtain ⟨errno, refused⟩ := refused
    rw [refused]
    refine ⟨_, cache, rfl, serves, ?_, ?_, ?_⟩
    · intro errno' same
      rw [refused] at same
      cases same
      rfl
    · intro inode found
      rw [refused] at found
      cases found
    · intro inode start stop found
      rw [refused] at found
      cases found
  | inl found =>
    obtain ⟨inode, found⟩ := found
    rw [found]
    obtain ⟨result, after, ran, yields, kept⟩ :=
      run_yields (decodeBlock_servesOn decodes calm budget)
        (fs.readInto inode offset.toNat (List.replicate size.toNat 0)) cache serves
    have returned : result ≠ panicked :=
      readInto_calm derived inode offset _ result
        ((asks_anything _).yields (fun _ _ _ permitted => permitted.2) yields)
    obtain ⟨reply, replied⟩ := orElse_replies returned .eio fun done => .data (done.2.take done.1)
    refine ⟨reply, after, by simp [ran, replied], kept, ?_, ?_, ?_⟩
    · intro errno refused
      rw [found] at refused
      cases refused
    · intro inode' same other
      rw [found] at same
      cases same
      obtain ⟨reason, fails⟩ := readInto_unreadable other offset.toNat (List.replicate size.toNat 0)
      rw [fails] at yields
      cases yields
      cases replied
      rfl
    · intro inode' start stop same regular accepted whole
      rw [found] at same
      cases same
      have asks := @readInto_asks (fun query => good query.block) fs inode offset.toNat
        (List.replicate size.toNat 0) fun start' stop' range chunk member hole _ _ => by
          rw [accepted] at range
          cases range
          exact (whole chunk member).1 hole
      have determined := readInto_determined inode offset.toNat (List.replicate size.toNat 0) result
        (asks.yields (fun _ _ here permitted => permitted.1 here) yields)
      rw [readOutcome_eq derived regular accepted (fun chunk member => (whole chunk member).2)
        offset.toNat_lt, List.length_replicate] at determined
      rw [determined] at replied
      cases replied
      exact congrArg Fuse.Reply.data (List.take_left' rfl)

/-- One request is replied to, whatever was asked before. -/
theorem handle_answered (derived : Derived fs) (decodes : DecodesOn libs fs good contents)
    (calm : ∀ query retryInFull, fs.decodeRecord libs query retryInFull ≠ panicked) {cache : Inner}
    (serves : ServesOn good fs contents cache) (request : Fuse.Request) :
    ∃ reply after, handle makedev fs libs budget request cache = some (.ok reply, after) ∧
      ServesOn good fs contents after ∧
        Answered good fs contents makedev libs budget request reply := by
  have unread : ∀ answer : Answer, (∃ reply, answer = .ok reply) →
      (∀ cache, handle makedev fs libs budget request cache = some (answer, cache)) →
      ∃ reply after, handle makedev fs libs budget request cache = some (.ok reply, after) ∧
        ServesOn good fs contents after ∧
        ∀ cache, handle makedev fs libs budget request cache = some (.ok reply, cache) := by
    intro answer replies same
    obtain ⟨reply, replies⟩ := replies
    subst replies
    exact ⟨reply, cache, same cache, serves, same⟩
  cases request with
  | lookup parent name => exact unread _ (lookup_replies derived parent name) fun _ => rfl
  | open_ ino => exact unread _ ⟨_, rfl⟩ fun _ => rfl
  | getattr ino =>
    apply unread _ (withIno_replies ino fun inode => orElse_replies (attrOf_calm derived inode) _ _)
    intro _
    rfl
  | readlink ino =>
    apply unread _ (withIno_replies ino fun inode =>
      orElse_replies (settles_readLink derived inode).1 _ _)
    intro _
    rfl
  | readdir ino offset room => exact unread _ (replyDirectory_replies ino offset room) fun _ => rfl
  | read ino offset size => exact read_answered derived decodes calm serves ino offset size

/-- A whole session, from any cache that another left behind. -/
theorem serve_answered (derived : Derived fs) (decodes : DecodesOn libs fs good contents)
    (calm : ∀ query retryInFull, fs.decodeRecord libs query retryInFull ≠ panicked)
    (requests : List Fuse.Request) {cache : Inner} (serves : ServesOn good fs contents cache) :
    ∃ replies after, serve makedev fs libs budget requests cache = some (.ok replies, after) ∧
      ServesOn good fs contents after ∧
      List.Forall₂ (Answered good fs contents makedev libs budget) requests replies := by
  induction requests generalizing cache with
  | nil => exact ⟨[], cache, rfl, serves, .nil⟩
  | cons request later ih =>
    obtain ⟨reply, between, handled, kept, answered⟩ :=
      @handle_answered good fs contents makedev libs budget derived decodes calm _ serves request
    obtain ⟨replies, after, served, kept, others⟩ := ih kept
    exact ⟨reply :: replies, after, by rw [serve, handled]; simp [served], kept, .cons answered others⟩

end Replies

section Clients

/-- What a client has read of a file that it reads from the start, each time where it stopped. -/
inductive Reads (ino : UInt64) : Bytes → List (Fuse.Request × Fuse.Reply) → Prop
  | nothing : Reads ino [] []
  | more {got bytes : Bytes} {exchanges : List (Fuse.Request × Fuse.Reply)} {offset : UInt64}
      {size : UInt32} (earlier : Reads ino got exchanges) (here : offset.toNat = got.length) :
      Reads ino (got ++ bytes) (exchanges ++ [(.read ino offset size, .data bytes)])

variable {good : UInt32 → Prop} {fs : Filesystem} {contents : UInt32 → Bytes} {ino : UInt64}
  {content : Bytes}

/-- Every read of the file shows the window asked for. -/
def ShowsWindows (ino : UInt64) (content : Bytes) (exchange : Fuse.Request × Fuse.Reply) : Prop :=
  ∀ offset size bytes, exchange = (.read ino offset size, .data bytes) →
    bytes = (content.drop offset.toNat).take size.toNat

theorem Reads.front {got : Bytes} {exchanges : List (Fuse.Request × Fuse.Reply)}
    (reads : Reads ino got exchanges)
    (windows : ∀ exchange ∈ exchanges, ShowsWindows ino content exchange) : got <+: content := by
  induction reads with
  | nothing => exact List.nil_prefix
  | @more got bytes exchanges offset size earlier here ih =>
    have before := ih fun exchange member => windows exchange (List.mem_append_left _ member)
    have shown := windows (.read ino offset size, .data bytes) (by simp) offset size bytes rfl
    rw [shown, here]
    obtain ⟨later, whole⟩ := before
    rw [← whole, List.drop_left]
    exact (List.prefix_append_right_inj got).mpr (List.take_prefix _ _)

/-- A reply without bytes to a read that has room for some ends the file. -/
theorem Reads.whole {got : Bytes} {exchanges : List (Fuse.Request × Fuse.Reply)} {offset : UInt64}
    {size : UInt32} (reads : Reads ino got exchanges)
    (windows : ∀ exchange ∈ exchanges, ShowsWindows ino content exchange) (some_ : 0 < size.toNat)
    (last : exchanges.getLast? = some (.read ino offset size, .data [])) : got = content := by
  have front := reads.front windows
  cases reads with
  | nothing => cases last
  | @more got bytes exchanges offset size earlier here =>
    rw [List.getLast?_concat] at last
    cases last
    have shown := windows (.read ino offset size, .data []) (by simp) offset size [] rfl
    rw [List.append_nil] at front ⊢
    have ended := congrArg List.length shown
    rw [List.length_nil, List.length_take, List.length_drop, here] at ended
    exact front.eq_of_length_le (by omega)

end Clients

section Main

variable {makedev : UInt32 → UInt32 → UInt64} {libs : Libraries} {build : Build} {image : Image}
  {fs : Filesystem} {good : UInt32 → Prop} {contents : UInt32 → Bytes} {bytes : Bytes}
  (opened : Filesystem.openImage libs build image = .ok fs) (held : image.source.Serves bytes)
  (short : bytes.length < sliceLimit)
  (codecs : CodecsReturn libs fs.blockSize.toNat) (decodes : DecodesOn libs fs good contents)

include opened held short codecs

theorem decodeRecord_opened (query : BlockQuery) (retryInFull : Bool) :
    fs.decodeRecord libs query retryInFull ≠ panicked := by
  have kept : fs.image = image := SameSections.image_of_open opened
  subst kept
  exact decodeRecord_calm held short codecs query retryInFull

include decodes

/-- A mount replies to every request of every session, whatever the cache budget and whichever
blocks do not decode. A request that is not a read is replied to by itself. A read of a regular
file whose chunks lie in good blocks gets the window of the content asked for. -/
theorem mount_replies (budget : Nat) (requests : List Fuse.Request) :
    ∃ replies after, serve makedev fs libs budget requests .empty = some (.ok replies, after) ∧
      List.Forall₂ (Answered good fs contents makedev libs budget) requests replies := by
  obtain ⟨replies, after, served, -, answered⟩ := serve_answered (derived_of_open opened) decodes
    (decodeRecord_opened opened held short codecs) requests servesOn_empty
  exact ⟨replies, after, served, answered⟩

/-- Among the requests of any session, a client that reads a sound file from the start, each time
on from where it stopped and in pieces of any size, has the front of its content; and all of it
once a piece with room for more comes back empty. -/
theorem mount_reads_file {budget : Nat} {requests : List Fuse.Request} {replies : List Fuse.Reply}
    {after : Inner}
    (served : serve makedev fs libs budget requests .empty = some (.ok replies, after))
    {ino : UInt64} {inode : UInt32} {start stop : Nat} (named : dwarfsIno ino.toNat = .ok inode)
    (regular : fs.kind inode = .ok .regular) (accepted : fs.chunkRange inode = .ok (start, stop))
    (sound : ∀ chunk ∈ chunksOf fs start stop, Spares good fs chunk ∧ Fits fs contents chunk)
    {exchanges : List (Fuse.Request × Fuse.Reply)} {got : Bytes}
    (among : exchanges.Sublist (requests.zip replies)) (reads : Reads ino got exchanges) :
    got <+: contentOf fs contents (chunksOf fs start stop) ∧
      ∀ offset size, 0 < size.toNat →
        exchanges.getLast? = some (.read ino offset size, .data []) →
        got = contentOf fs contents (chunksOf fs start stop) := by
  obtain ⟨replies', after', served', -, answered⟩ := @serve_answered good fs contents makedev
    libs budget (derived_of_open opened) decodes
    (decodeRecord_opened opened held short codecs) requests _ servesOn_empty
  rw [served] at served'
  cases served'
  have windows : ∀ exchange ∈ exchanges,
      ShowsWindows ino (contentOf fs contents (chunksOf fs start stop)) exchange := by
    intro exchange member offset size bytes same
    subst same
    have replied := (List.forall₂_iff_zip.mp answered).2 (among.subset member)
    have shown := replied.window inode start stop named regular accepted sound
    cases shown
    rfl
  exact ⟨reads.front windows, fun offset size some_ last => reads.whole windows some_ last⟩

end Main

section Named

/-- A file read in three pieces, with another request in between. -/
def namedRequests : List Fuse.Request :=
  [.read 2 0 3, .getattr 1, .read 2 3 4, .read 2 5 1]

theorem decodesOn_named :
    DecodesOn namedLibraries named (fun _ => True) fun _ => helloBlock where
  whole block record _ := named_decodes.whole block record
  bounded block record _ := named_decodes.bounded block record
  partly block record want _ := named_decodes.partly block record want

theorem named_short : namedBytes.length < sliceLimit := by decide +kernel

theorem named_held : namedImage.source.Serves namedBytes := ImageSource.serves_ofVec named_short

theorem named_codecs : CodecsReturn namedLibraries named.blockSize.toNat :=
  codecsReturn_block _ _ _ named.blockSize

theorem mount_replies_named :
    ∃ replies after,
      serve (fun _ _ => 0) named namedLibraries 0 namedRequests .empty =
        some (.ok replies, after) ∧
      List.Forall₂ (Answered (fun _ => True) named (fun _ => helloBlock) (fun _ _ => 0)
        namedLibraries 0) namedRequests replies :=
  mount_replies open_named named_held named_short named_codecs
    decodesOn_named 0 namedRequests

theorem named_sound : ∀ chunk ∈ chunksOf named 0 2,
    Spares (fun _ => True) named chunk ∧ Fits named (fun _ => helloBlock) chunk := by
  unfold Spares Fits
  decide

theorem mount_reads_file_named :
    helloBlock = contentOf named (fun _ => helloBlock) (chunksOf named 0 2) := by
  obtain ⟨replies, after, served, -, answered⟩ := @serve_answered _ _ _ (fun _ _ => 0)
    _ 0 (derived_of_open open_named) decodesOn_named
    (decodeRecord_opened open_named named_held named_short named_codecs)
    namedRequests _ servesOn_empty
  have window : ∀ (offset : UInt64) (size : UInt32) (reply : Fuse.Reply),
      ReadAnswered (fun _ => True) named (fun _ => helloBlock) 2 offset size reply →
      reply = .data ((helloBlock.drop offset.toNat).take size.toNat) := by
    intro offset size reply replied
    exact replied.window 1 0 2 (by decide) (by decide) (by decide) named_sound
  cases answered with
  | @cons _ first _ _ one answered =>
    cases answered with
    | @cons _ other _ _ _ answered =>
      cases answered with
      | @cons _ second _ _ two answered =>
        cases answered with
        | @cons _ third _ _ three answered =>
          cases answered
          rw [window _ _ _ one, window _ _ _ two, window _ _ _ three] at served
          have once := @Reads.more 2 [] [104, 101, 108] [] 0 3 .nothing rfl
          have twice := @Reads.more 2 _ [108, 111] _ 3 4 once rfl
          have reads := @Reads.more 2 _ [] _ 5 1 twice rfl
          apply (mount_reads_file open_named named_held named_short
            named_codecs decodesOn_named served
            (by decide : dwarfsIno (2 : UInt64).toNat = .ok 1) (by decide) (by decide)
            named_sound ?_ reads).2 5 1 (by decide) rfl
          exact .cons_cons _ (.cons _ (.cons_cons _ (.cons_cons _ .slnil)))

end Named

end Rdwarfs.Guarantees.MountSessions
