import Extron.FreeSet
import Extron.FrameRuns
import Extron.Placement
import Extron.EarlyTables
import Extron.KernelMap
import Extron.Regions
import Extron.OwnPages
import Extron.Startup
import Extron.Heap
import Extron.Agreement
import Extron.Leaks
import Extron.Layout
import Extron.Library.Cache
import Extron.Tlb
import Extron.Sizing
import Extron.Overlaps
import Extron.Releases
import Extron.Supply
import Extron.NextFit
import Extron.Console
import Extron.Kvprintf
import Extron.Library.Numerals
import Extron.Numbers
import Extron.Rendering
import Extron.FreeBounds
import Extron.Permissions
import Extron.Library.Footprint
import Extron.Walks
import Extron.Encoding
import Extron.Decoding
import Extron.BootSupply
import Extron.Completeness
import Extron.Misuse
import Extron.BootAsm
import Extron.Handover
import Extron.Idt
import Extron.Isr
import Extron.Pic
