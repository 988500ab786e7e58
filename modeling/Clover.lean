import Clover.Lib.Bits
import Clover.Lib.Bytes
import Clover.Lib.Cells
import Clover.Lib.Reader
import Clover.Lib.Run
import Clover.Lib.Steps
import Clover.Aml.PkgLength
import Clover.Aml.Generator
import Clover.Aml.Sizes
import Clover.Acpi.TableId
import Clover.Acpi.Xsdt
import Clover.Boot.Options
import Clover.Boot.Order
import Clover.Inject.Format
import Clover.Inject.DeviceString
import Clover.Inject.Serialise
import Clover.Smbios.Table
import Clover.Smbios.Fields
import Clover.Patch.Memory
import Clover.Patch.Agreement
import Clover.Foundation.XObjArray
import Clover.Gui.Scroll
import Clover.Unicode.Chars
import Clover.Unicode.Conversions
import Clover.Unicode.Text
import Clover.Unicode.RoundTrip
import Clover.Unicode.Termination
import Clover.Unicode.Truncation
import Clover.Xml.Parser
import Clover.Xml.Strings
import Clover.Xml.Scalars
import Clover.Xml.Composites
import Clover.Xml.Cursor
import Clover.Xml.Progress
import Clover.Xml.Contracts
import Clover.Xml.Termination
import Clover.Xml.Reuse
import Clover.Xml.Text
import Clover.Xml.Document
import Clover.Xml.Stray
import Clover.Xml.Values
import Clover.Xml.Outcomes
import Clover.Xml.Loops
import Clover.Xml.Entries
import Clover.Xml.DictOutcomes
import Clover.Xml.ListOutcomes
import Clover.Plist.Parser
import Clover.Plist.Bounds
import Clover.Plist.Scan
import Clover.Plist.Values
import Clover.Plist.Semantics
import Clover.Plist.RoundTrip
import Clover.Plist.Markup
import Clover.Xml.Lines
import Clover.Lib.Greedy
import Clover.Patch.Replacement
import Clover.Xml.Entities
import Clover.Xml.LookAhead
import Clover.Patch.Search
import Clover.Patch.TextReplacement
import Clover.FSInject.Names
import Clover.FSInject.Open
import Clover.Unicode.XString
import Clover.Unicode.Editing
import Clover.Lib.Radix
import Clover.MemoryFix.Mapping
import Clover.SecureBoot.Signatures
import Clover.SecureBoot.Database
import Clover.Xml.Integers
import Clover.Xml.Schemas
import Clover.Xml.UnknownKeys
import Clover.Xml.Siblings
import Clover.Kernel.Sections
import Clover.Kext.Text
import Clover.Kext.BundleIdentifier
import Clover.Kext.PrelinkValues
import Clover.Kext.Prelinked
import Clover.Dsdt.Lengths
import Clover.Dsdt.Outers
import Clover.Dsdt.Patches
import Clover.Dsdt.Renames
import Clover.Boot.Variable
import Clover.Disk.ExtendedPartition
import Clover.Aml.Release
import Clover.Aml.Values
import Clover.Plist.Lookup
import Clover.Version.Number
import Clover.Version.MacOs
import Clover.Plist.Nvram
import Clover.MemoryFix.Allocation
