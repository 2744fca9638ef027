import SnsxOS.Framework.Bytes
import SnsxOS.Framework.Transition
import SnsxOS.Framework.Stream
import SnsxOS.Framework.Writer
import SnsxOS.Framework.TextBuffer
import SnsxOS.Framework.Layout
import SnsxOS.Framework.FileVolume
import SnsxOS.Framework.FirstDistinct
import SnsxOS.Framework.Ring
import SnsxOS.Framework.Lines
import SnsxOS.Framework.OnesComplement
import SnsxOS.Framework.PercentCode
import SnsxOS.Framework.SlotTable
import SnsxOS.Framework.PathTree
import SnsxOS.Framework.PathNames
import SnsxOS.Framework.Fuel
import SnsxOS.Framework.Walk
import SnsxOS.Framework.Session
import SnsxOS.Framework.KeyedList
import SnsxOS.Framework.Replay
import SnsxOS.Framework.ForLoop
import SnsxOS.Framework.Paper
import SnsxOS.Framework.LineEdit
import SnsxOS.Framework.Words
import SnsxOS.Framework.NamedSlots
import SnsxOS.Framework.Chunks
import SnsxOS.Framework.Painting
import SnsxOS.Lib.Strings
import SnsxOS.Lib.LittleEndian
import SnsxOS.Lib.Text
import SnsxOS.Lib.Decimal
import SnsxOS.Lib.Urllib
import SnsxOS.X86.FileSystem
import SnsxOS.X86.TreeInvariant
import SnsxOS.X86.Refinement
import SnsxOS.X86.Move
import SnsxOS.X86.Initrd
import SnsxOS.X86.Mkinitrd
import SnsxOS.X86.Paths
import SnsxOS.X86.Directories
import SnsxOS.X86.Resolve
import SnsxOS.X86.Shell
import SnsxOS.X86.Console
import SnsxOS.X86.Addresses
import SnsxOS.X86.Keyboard
import SnsxOS.X86.Task
import SnsxOS.X86.Vga
import SnsxOS.X86.LineInput
import SnsxOS.X86.Listing
import SnsxOS.X86.TypedSession
import SnsxOS.Framework.InterruptController
import SnsxOS.X86.Interrupts
import SnsxOS.X86.InterruptStub
import SnsxOS.X86.Memory
import SnsxOS.X86.Ata
import SnsxOS.Arm64.FileSystem
import SnsxOS.Arm64.Table
import SnsxOS.Arm64.EfiFiles
import SnsxOS.Arm64.EfiVolumes
import SnsxOS.Arm64.Entries
import SnsxOS.Arm64.Persist
import SnsxOS.Arm64.Load
import SnsxOS.Arm64.RoundTrip
import SnsxOS.Arm64.AppendLine
import SnsxOS.Arm64.Paths
import SnsxOS.Arm64.Seed
import SnsxOS.Arm64.TreeInvariant
import SnsxOS.Arm64.Shell
import SnsxOS.Arm64.Listing
import SnsxOS.Arm64.Console
import SnsxOS.Arm64.Volumes
import SnsxOS.Arm64.Rename
import SnsxOS.Arm64.Reboot
import SnsxOS.Arm64.Rescan
import SnsxOS.Arm64.Deserialize
import SnsxOS.Arm64.DiskManager
import SnsxOS.Arm64.Browser
import SnsxOS.Arm64.Links
import SnsxOS.Arm64.LinksSummary
import SnsxOS.Arm64.TextLayout
import SnsxOS.Arm64.ConsoleOutput
import SnsxOS.Arm64.Pointer
import SnsxOS.Arm64.Graphics
import SnsxOS.Arm64.Snake
import SnsxOS.Arm64.TextEditor
import SnsxOS.Arm64.ShellWords
import SnsxOS.Arm64.Navigation
import SnsxOS.Arm64.Desktop
import SnsxOS.Arm64.StateFiles
import SnsxOS.Arm64.Preferences
import SnsxOS.Arm64.Wireless
import SnsxOS.Arm64.WirelessFile
import SnsxOS.Arm64.Store
import SnsxOS.Arm64.Studio
import SnsxOS.Arm64.Restore
import SnsxOS.Arm64.Boot
import SnsxOS.Arm64.TableFrame
import SnsxOS.Arm64.Packages
import SnsxOS.Arm64.Net.Packet
import SnsxOS.Arm64.Net.Frames
import SnsxOS.Arm64.Net.Tcp
import SnsxOS.Arm64.Net.TcpReceive
import SnsxOS.Arm64.Net.TcpExchange
import SnsxOS.Arm64.Net.Url
import SnsxOS.Arm64.Net.Http
import SnsxOS.Arm64.Net.Headers
import SnsxOS.Arm64.Net.RenderHtml
import SnsxOS.Arm64.Net.HiddenElements
import SnsxOS.Arm64.Net.Udp
import SnsxOS.Arm64.Net.TcpSend
import SnsxOS.Arm64.Net.Dhcp
import SnsxOS.Arm64.Net.DhcpPayload
import SnsxOS.Arm64.Net.Dns
import SnsxOS.Arm64.Net.Ipv4Text
import SnsxOS.Arm64.Net.DnsReply
import SnsxOS.Arm64.Net.DnsQuery
import SnsxOS.Arm64.Net.Netstack
import SnsxOS.Arm64.Net.Link
import SnsxOS.Arm64.Net.DhcpRenew
import SnsxOS.Arm64.Net.DhcpServer
import SnsxOS.Arm64.Net.Ports
import SnsxOS.Arm64.Net.Bridges
import SnsxOS.Arm64.Net.RequestText
import SnsxOS.Arm64.Net.E1000Rx
import SnsxOS.Arm64.Net.E1000
import SnsxOS.Arm64.Net.Arp
import SnsxOS.Editions.Resolve
import SnsxOS.Editions.Expression
import SnsxOS.Editions.Calculator
import SnsxOS.Editions.DivideError
import SnsxOS.Editions.CurrentDirectory
import SnsxOS.Editions.MenuIndex
