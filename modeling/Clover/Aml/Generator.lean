import Clover.Aml.PkgLength

/-!
# The AML generator

The model of `Platform/AmlGenerator.cpp`. An `AML_CHUNK` is a node of a tree: its type, the
`Length` bytes of its `Buffer`, the `Size` that `aml_calculate_size` stores in it, and the
chain of its child nodes, which is a list here (`First`, `Next`, `Last`).

A tree is built by calls of the `aml_add_*` functions, each with a node that exists already
as the parent: `Call` is one such call and `Built` says what trees they make. A method whose
name is refused, and a name that overruns its buffer, make no node. `aml_add_byte_buffer` always
copies two bytes more than there is room for; the node it makes is the one that is meant.

`aml_write_node` writes at increasing offsets; its buffer is the list of the bytes written so
far, and the offset is its length.
-/

namespace Clover.Aml

/-- The `Type` of a node. -/
inductive ChunkType where
  | none
  | alias
  | name
  | byte
  | word
  | dword
  | string
  | qword
  | scope
  | buffer
  | package
  | method
  | local0
  | store
  | device
  | return
  deriving DecidableEq, Repr

/-- The number that stands for a type, which is also its opcode. -/
def ChunkType.code : ChunkType → UInt8
  | .none => 0xff
  | .alias => 0x06
  | .name => 0x08
  | .byte => 0x0A
  | .word => 0x0B
  | .dword => 0x0C
  | .string => 0x0D
  | .qword => 0x0E
  | .scope => 0x10
  | .buffer => 0x11
  | .package => 0x12
  | .method => 0x14
  | .local0 => 0x60
  | .store => 0x70
  | .device => 0x82
  | .return => 0xA4

/-- A node with its child nodes. -/
inductive AmlChunk where
  | mk (type : ChunkType) (length : UInt16) (buffer : Bytes) (size : UInt16)
      (children : List AmlChunk)

namespace AmlChunk

def type : AmlChunk → ChunkType
  | mk type _ _ _ _ => type

def length : AmlChunk → UInt16
  | mk _ length _ _ _ => length

def buffer : AmlChunk → Bytes
  | mk _ _ buffer _ _ => buffer

def size : AmlChunk → UInt16
  | mk _ _ _ size _ => size

def children : AmlChunk → List AmlChunk
  | mk _ _ _ _ children => children

/-- A new node, without children. -/
def leaf (type : ChunkType) (length : UInt16) (buffer : Bytes) : AmlChunk :=
  mk type length buffer 0 []

end AmlChunk

/-! ## Building -/

/-- The parent with the node as its last child, unless the parent takes none. -/
def amlAddToParent (parent node : AmlChunk) : Option AmlChunk :=
  let added := AmlChunk.mk parent.type parent.length parent.buffer parent.size
    (parent.children ++ [node])
  match parent.type with
  | .none | .byte | .word | .dword | .qword | .alias => none
  | .name => if parent.children.isEmpty then some added else none
  | _ => some added

/-- The first four characters of a name, if it has four. -/
def amlFillSimpleName (name : Bytes) : Bytes :=
  if name.length < 4 then [0, 0, 0, 0] else name.take 4

/-- The bytes that a path name puts into the node's buffer, none for a name of a wrong length.
A name with so many parts that its bytes do not fit a 16-bit length overruns the buffer. -/
def amlFillName (name : Bytes) : Option Bytes :=
  let len := name.length
  let count := len / 4
  if 1 < len % 4 ∨ count = 0 then some []
  else
    let root := if len % 4 = 1 ∧ name.getD 0 0 = 0x5c then 1 else 0
    if count = 1 then some (name.take (4 + root))
    else if count = 2 then some ([0x5c, 0x2e] ++ (name.drop root).take 8)
    else if 3 + count * 4 < 0x10000 then
      some ([0x5c, 0x2f, count.toUInt8] ++ (name.drop root).take (count * 4))
    else none

/-- A node with a path name in its buffer. -/
def namedNode (type : ChunkType) (name : Bytes) : Option AmlChunk :=
  (amlFillName name).map fun bytes => .leaf type bytes.length.toUInt16 bytes

def amlAddBuffer (buffer : Bytes) : AmlChunk :=
  let length := buffer.length.toUInt16
  .leaf .none length (buffer.take length.toNat)

def amlAddByte (value : UInt8) : AmlChunk := .leaf .byte 1 [value]

def amlAddWord (value : UInt16) : AmlChunk :=
  .leaf .word 2 [(value &&& 0xff).toUInt8, (value >>> 8).toUInt8]

def amlAddDword (value : UInt32) : AmlChunk :=
  .leaf .dword 4 [(value &&& 0xff).toUInt8, ((value >>> 8) &&& 0xff).toUInt8,
    ((value >>> 16) &&& 0xff).toUInt8, ((value >>> 24) &&& 0xff).toUInt8]

def amlAddQword (value : UInt64) : AmlChunk :=
  .leaf .qword 8 [(value &&& 0xff).toUInt8, ((value >>> 8) &&& 0xff).toUInt8,
    ((value >>> 16) &&& 0xff).toUInt8, ((value >>> 24) &&& 0xff).toUInt8,
    ((value >>> 32) &&& 0xff).toUInt8, ((value >>> 40) &&& 0xff).toUInt8,
    ((value >>> 48) &&& 0xff).toUInt8, ((value >>> 56) &&& 0xff).toUInt8]

def amlAddScope (name : Bytes) : Option AmlChunk := namedNode .scope name

def amlAddName (name : Bytes) : Option AmlChunk := namedNode .name name

def amlAddDevice (name : Bytes) : Option AmlChunk := namedNode .device name

def amlAddReturnName (name : Bytes) : Option AmlChunk := namedNode .return name

/-- The flags follow the name. After a name of a wrong length there is no buffer to write
them to. -/
def amlAddMethod (name : Bytes) (args : UInt8) : Option AmlChunk :=
  match amlFillName name with
  | none | some [] => none
  | some bytes => some (.leaf .method (bytes.length.toUInt16 + 1) (bytes ++ [args]))

def amlAddPackage : AmlChunk := .leaf .package 1 [0]

def amlAddAlias (name1 name2 : Bytes) : AmlChunk :=
  .leaf .alias 8 (amlFillSimpleName name1 ++ amlFillSimpleName name2)

def amlAddReturn : AmlChunk := .leaf .return 0 []

def amlAddReturnByte (value : UInt8) : AmlChunk := .mk .return 0 [] 0 [amlAddByte value]

def amlAddLocal0 : AmlChunk := .leaf .local0 1 []

def amlAddStore : AmlChunk := .leaf .store 1 []

/-- The length is kept in eight bits. -/
def amlAddByteBuffer (data : Bytes) : AmlChunk :=
  let length := (data.length + 2).toUInt8
  .leaf .buffer length.toUInt16
    (([ChunkType.byte.code, data.length.toUInt8] ++ data).take length.toNat)

def amlAddStringBuffer (string : Bytes) : AmlChunk :=
  let length := (string.length + 3).toUInt8
  .leaf .buffer length.toUInt16
    (([ChunkType.byte.code, (string.length + 1).toUInt8] ++ string ++ [0]).take length.toNat)

def amlAddString (string : Bytes) : AmlChunk :=
  let length := (string.length + 1).toUInt8
  .leaf .string length.toUInt16 ((string ++ [0]).take length.toNat)

/-- A call of one of the `aml_add_*` functions, without its parent. -/
inductive Call where
  | buffer (buffer : Bytes)
  | byte (value : UInt8)
  | word (value : UInt16)
  | dword (value : UInt32)
  | qword (value : UInt64)
  | scope (name : Bytes)
  | name (name : Bytes)
  | method (name : Bytes) (args : UInt8)
  | package
  | aliasNames (name1 name2 : Bytes)
  | returnName (name : Bytes)
  | returnByte (value : UInt8)
  | returnEmpty
  | device (name : Bytes)
  | local0
  | store
  | byteBuffer (data : Bytes)
  | stringBuffer (string : Bytes)
  | string (string : Bytes)

/-- The node a call makes. -/
def Call.node : Call → Option AmlChunk
  | .buffer b => some (amlAddBuffer b)
  | .byte v => some (amlAddByte v)
  | .word v => some (amlAddWord v)
  | .dword v => some (amlAddDword v)
  | .qword v => some (amlAddQword v)
  | .scope n => amlAddScope n
  | .name n => amlAddName n
  | .method n args => amlAddMethod n args
  | .package => some amlAddPackage
  | .aliasNames n₁ n₂ => some (amlAddAlias n₁ n₂)
  | .returnName n => amlAddReturnName n
  | .returnByte v => some (amlAddReturnByte v)
  | .returnEmpty => some amlAddReturn
  | .device n => amlAddDevice n
  | .local0 => some amlAddLocal0
  | .store => some amlAddStore
  | .byteBuffer d => some (amlAddByteBuffer d)
  | .stringBuffer s => some (amlAddStringBuffer s)
  | .string s => some (amlAddString s)

/-- Offer `node` to the node of the tree that is reached by the child numbers `path`. A parent
that refuses it stays as it is. -/
def AmlChunk.addAt : AmlChunk → List Nat → AmlChunk → AmlChunk
  | t, [], node => (amlAddToParent t node).getD t
  | mk type length buffer size children, i :: path, node =>
    mk type length buffer size (children.modify i fun child => addAt child path node)

/-- The trees that calls of the `aml_add_*` functions build. -/
inductive Built : AmlChunk → Prop where
  | root (call : Call) {node : AmlChunk} (h : call.node = some node) : Built node
  | add {t : AmlChunk} (ht : Built t) (path : List Nat) (call : Call) {node : AmlChunk}
      (h : call.node = some node) : Built (t.addAt path node)

/-! ## Sizes -/

/-- The number of bytes the length in front of a package takes. -/
def amlGetSizeLength (size : UInt32) : UInt8 :=
  if size + 1 ≤ 0x3f then 1
  else if size + 2 ≤ 0xfff then 2
  else if size + 3 ≤ 0xfffff then 3
  else 4

mutual

/-- The sizes, from the leaves up. -/
def amlCalculateSize : AmlChunk → AmlChunk
  | .mk type length buffer _ children =>
    let (children', childCount, size) := amlCalculateChildren children 0 0
    match type with
    | .none | .store | .local0 => .mk type length buffer (size + length) children'
    | .method | .scope | .buffer =>
      let size := size + (1 + length)
      .mk type length buffer (size + (amlGetSizeLength size.toUInt32).toUInt16) children'
    | .device =>
      let size := size + (2 + length)
      .mk type length buffer (size + (amlGetSizeLength size.toUInt32).toUInt16) children'
    | .package =>
      let size := size + (1 + length)
      .mk type length (buffer.set 0 childCount)
        (size + (amlGetSizeLength size.toUInt32).toUInt16) children'
    | .byte =>
      if buffer.getD 0 0 = 0x0 ∨ buffer.getD 0 0 = 0x1 then
        .mk type length buffer (size + length) children'
      else .mk type length buffer (size + (1 + length)) children'
    | .word | .dword | .qword | .alias | .name | .return | .string =>
      .mk type length buffer (size + (1 + length)) children'

/-- The loop over the child nodes, with `child_count` and the `Size` summed up so far. -/
def amlCalculateChildren : List AmlChunk → UInt8 → UInt16 → List AmlChunk × UInt8 × UInt16
  | [], childCount, size => ([], childCount, size)
  | child :: rest, childCount, size =>
    let child' := amlCalculateSize child
    let (rest', childCount', size') :=
      amlCalculateChildren rest (childCount + 1) (size + child'.size)
    (child' :: rest', childCount', size')

end

/-! ## Writing -/

def amlWriteByte (value : UInt8) (out : Bytes) : Bytes := out ++ [value]

def amlWriteBuffer (value : Bytes) (size : UInt16) (out : Bytes) : Bytes :=
  out ++ value.take size.toNat

def amlWriteSize (size : UInt32) (out : Bytes) : Bytes := out ++ sizeBytes size

mutual

/-- The opcode, the length and the buffer, with the children behind. -/
def amlWriteNode : AmlChunk → Bytes → Bytes
  | .mk type length buffer size children, out =>
    let out := match type with
      | .none => amlWriteBuffer buffer length out
      | .local0 | .store => amlWriteByte type.code out
      | .device =>
        let out := amlWriteByte type.code (amlWriteByte 0x5B out)
        amlWriteBuffer buffer length (amlWriteSize (size.toUInt32 - 2) out)
      | .scope | .method | .package | .buffer =>
        amlWriteBuffer buffer length
          (amlWriteSize (size.toUInt32 - 1) (amlWriteByte type.code out))
      | .byte =>
        if buffer.getD 0 0 = 0x0 ∨ buffer.getD 0 0 = 0x1 then amlWriteBuffer buffer length out
        else amlWriteBuffer buffer length (amlWriteByte type.code out)
      | .word | .dword | .qword | .alias | .name | .return | .string =>
        amlWriteBuffer buffer length (amlWriteByte type.code out)
    amlWriteChildren children out

def amlWriteChildren : List AmlChunk → Bytes → Bytes
  | [], out => out
  | child :: rest, out => amlWriteChildren rest (amlWriteNode child out)

end

end Clover.Aml
